import Remudero.Lib.Number
import Remudero.Lib.Transition
import Remudero.Automation.Action

/-! # Delegation profiles

`lib/delegation-profile.ts`: what a delegation may do, spend and for how long.  A profile is a validated
record; its state is a fold over the ledger, in which the first record of an id wins, the first decision
stands, a revocation is terminal and the acceptance of a replacement marks its predecessor superseded.  The
status of a profile and whether an action may run under it are derived from that state and the clock.

* `profile_only_loses_authority`: a profile that is over at some row and time is over at every later one.
* `profile_within_budget`: while every admitted action leaves its usage row, no profile spends more than its
  budget.

Amounts are exact rationals; `shownUsd` is how one is written in a text.  Texts of instants are never empty. -/

namespace Remudero.Automation

open Remudero.Lib
open Remudero.Delegation (DelegationRiskTier)

/-! ### The record -/

def DELEGATION_PROFILE_VERSION : Text := "delegation-profile-v1".toList

def DELEGATION_PROFILE_LEDGER_STEP : Text := "panel.operator_agent_delegation_profile".toList

def DELEGATION_DECISION_LEDGER_STEP : Text := "panel.operator_agent_delegation_decision".toList

def DELEGATION_PROFILE_MAX_ID_CHARS : ℕ := 160

def DELEGATION_PROFILE_MAX_TEXT_CHARS : ℕ := 320

def DELEGATION_PROFILE_MAX_CLASS_CHARS : ℕ := 120

def DELEGATION_PROFILE_MAX_LIST : ℕ := 32

def DELEGATION_PROFILE_MAX_LIFETIME_MS : ℤ := 90 * 24 * 60 * 60 * 1000

def DELEGATION_PROFILE_MAX_COST_USD : ℚ := 10000

def DELEGATION_PROFILE_MAX_DURATION_MINUTES : ℕ := 90 * 24 * 60

/-- `DELEGATION_NON_AUTHORITATIVE_FIELD_RE` -/
def delegationNonAuthoritativeFieldRe : Re :=
  let under : Re := .opt (.char '_')
  alts [
    .seqs [.start, .opt (.seq (.textCI "model") under), .textCI "confidence", .opt (.seq under (.textCI "score")),
      .stop],
    .seqs [.start,
      alts [.textCI "prior", .textCI "previous", .textCI "remembered", .textCI "cached", .textCI "client"], under,
      plural "approval", .stop],
    .seqs [.start, .textCI "ui", under, .textCI "state", .stop]]

/-- The first key that claims authority, as a dotted path. -/
def findNonAuthoritativeSignal : ℕ → Text → Json → Option Text
  | 0, _, _ => none
  | levels + 1, path, value =>
      (entriesOf value).findSome? fun (key, child) =>
        if !isArray value && delegationNonAuthoritativeFieldRe.test key then some (childPath path key)
        else findNonAuthoritativeSignal levels (childPath path key) child

inductive DelegationProfileScope
  | repository (repository : Text)
  | inst (instanceId : Text)
deriving DecidableEq

structure DelegationProfileLink where
  flowId : Option Text
  actionId : Option Text
deriving DecidableEq

structure DelegationBudget where
  costUsd : ℚ
  durationMinutes : ℕ
deriving DecidableEq

inductive DelegationNotificationPolicy
  | silent
  | onRefusal
  | onEveryAction
deriving DecidableEq

inductive DelegationApprovalLevel
  | profile
  | eachAction
deriving DecidableEq

structure DelegationProfile where
  delegationId : Text
  revision : ℕ
  replaces : Option Text
  principal : Text
  purpose : Text
  link : DelegationProfileLink
  scope : DelegationProfileScope
  dataClasses : List Text
  capabilities : List Text
  capabilitySummary : Text
  riskTier : DelegationRiskTier
  budget : DelegationBudget
  notification : DelegationNotificationPolicy
  approvalLevel : DelegationApprovalLevel
  humanDecision : Text
  fallbackOwner : Text
  createdAt : Text
  expiresAt : Text
  revocationRef : Text
deriving DecidableEq

/-- A finite number. -/
def asNumber : Option Json → Option ℚ
  | some (.num shown) => Number.number shown
  | _ => none

/-- A whole number of at least one. -/
def asPositive (value : Option Json) : Option ℕ :=
  (asNumber value).bind fun q => if q.den = 1 ∧ 1 ≤ q then some q.num.toNat else none

def riskRank : DelegationRiskTier → ℕ
  | .low => 0
  | .medium => 1
  | .high => 2
  | .production | .financial | .credential | .destructive => 3

/-- The four critical tiers admit only themselves. -/
def riskWithinProfile (action ceiling : DelegationRiskTier) : Bool :=
  if riskRank action = 3 then decide (action = ceiling) else decide (riskRank action ≤ riskRank ceiling)

def delegationRevocationRef (delegationId : Text) : Text :=
  "/v1/operator-agent/delegations/decision#".toList ++ delegationId

def trimmedId (value : Option Json) : Option Text := (boundedField value DELEGATION_PROFILE_MAX_ID_CHARS).map Text.trim

def trimmedText (value : Option Json) : Option Text :=
  (boundedField value DELEGATION_PROFILE_MAX_TEXT_CHARS).map Text.trim

def validateProfileScope (value : Option Json) : Option DelegationProfileScope := do
  let value ← asRow value
  if value.str "kind" = some "repository".toList then (trimmedId (value.field "repository")).map .repository
  else if value.str "kind" = some "instance".toList then (trimmedId (value.field "instanceId")).map .inst
  else none

def validateLink (value : Option Json) : Option DelegationProfileLink := do
  let value ← asRow value
  let flowId ← optionally (fun v => trimmedId (some v)) (value.field "flowId")
  let actionId ← optionally (fun v => trimmedId (some v)) (value.field "actionId")
  if flowId.isSome || actionId.isSome then some ⟨flowId, actionId⟩ else none

def validateList (value : Option Json) (maxChars : ℕ) : Option (List Text) :=
  match value with
  | some (.arr items) =>
      if items.length = 0 ∨ DELEGATION_PROFILE_MAX_LIST < items.length then none
      else
        (items.mapM fun item => (boundedField (some item) maxChars).map Text.trim).filter fun items => decide items.Nodup
  | _ => none

def validateBudget (value : Option Json) : Option DelegationBudget := do
  let value ← asRow value
  let costUsd ← (asNumber (value.field "costUsd")).filter fun c => 0 ≤ c && c ≤ DELEGATION_PROFILE_MAX_COST_USD
  let durationMinutes ← (asPositive (value.field "durationMinutes")).filter fun n =>
    n ≤ DELEGATION_PROFILE_MAX_DURATION_MINUTES
  some ⟨costUsd, durationMinutes⟩

def notificationOf : Text → Option DelegationNotificationPolicy :=
  named [("silent", .silent), ("on-refusal", .onRefusal), ("on-every-action", .onEveryAction)]

def approvalLevelOf : Text → Option DelegationApprovalLevel := named [("profile", .profile), ("each-action", .eachAction)]

/-- The revision and the profile it replaces: revision 1 replaces nothing. -/
def revisionOf (row : Row) : Option (ℕ × Option Text) := do
  let revision ← asPositive (row.field "revision")
  if revision = 1 then if row.field "replaces" = none then some (revision, none) else none
  else (trimmedId (row.field "replaces")).map fun replaces => (revision, some replaces)

variable (D : Dates)

def validateDelegationProfile (value : Option Json) : Except AutomationActionRefusal DelegationProfile := do
  let refuse (code field reason : String) : AutomationActionRefusal := ⟨code.toList, field.toList, reason.toList⟩
  let row ← require (asRow value) (refuse "not-an-object" "profile" "a delegation profile must be a JSON object")
  refuseSome (automationRedactionViolation (.obj row)) fun (code, field) =>
    ⟨code.text, field, "field ".toList ++ field ++ " may not enter the delegation-profile contract".toList⟩
  refuseSome (findNonAuthoritativeSignal scanLevels [] (.obj row)) fun field =>
    ⟨"non-authoritative-signal".toList, field,
      "field ".toList ++ field ++ " claims authority a delegation profile never grants".toList⟩
  refuseIf (row.str "version" ≠ some DELEGATION_PROFILE_VERSION)
    (refuse "invalid-version" "version" "version must be delegation-profile-v1")
  let identity := refuse "missing-identity" "delegationId" "delegationId, principal, and a bounded purpose are required"
  let delegationId ← require (trimmedId (row.field "delegationId")) identity
  let principal ← require (trimmedId (row.field "principal")) identity
  let purpose ← require (trimmedText (row.field "purpose")) identity
  let (revision, replaces) ← require (revisionOf row)
    (refuse "missing-identity" "revision"
      "revision 1 replaces nothing; every later revision names the profile it replaces")
  let link ← require (validateLink (row.field "link"))
    (refuse "missing-link" "link" "link must name the flowId or actionId this delegation governs")
  let scope ← require (validateProfileScope (row.field "scope"))
    (refuse "missing-scope" "scope"
      "scope must be \x7bkind: repository, repository\x7d or \x7bkind: instance, instanceId\x7d")
  let dataClasses ← require (validateList (row.field "dataClasses") DELEGATION_PROFILE_MAX_CLASS_CHARS)
    (refuse "missing-data-classes" "dataClasses" "1-32 unique readable data classes are required")
  let allowed := refuse "missing-capabilities" "capabilities"
    "1-32 unique capabilities and a bounded capabilitySummary are required"
  let capabilities ← require (validateList (row.field "capabilities") DELEGATION_PROFILE_MAX_ID_CHARS) allowed
  let capabilitySummary ← require (trimmedText (row.field "capabilitySummary")) allowed
  let riskTier ← require (riskOf (row.field "riskTier"))
    (refuse "invalid-risk" "riskTier"
      "riskTier must be one of low, medium, high, production, financial, credential, destructive")
  let budget ← require (validateBudget (row.field "budget"))
    (refuse "missing-budget" "budget"
      "budget needs costUsd in 0..10000 and integer durationMinutes in 1..129600")
  let notification ← require ((row.str "notification").bind notificationOf)
    (refuse "missing-notification" "notification" "notification must be one of silent, on-refusal, on-every-action")
  let approvalLevel ← require ((row.str "approvalLevel").bind approvalLevelOf)
    (refuse "missing-approval-level" "approvalLevel" "approvalLevel must be one of profile, each-action")
  let humanDecision ← require (trimmedText (row.field "humanDecision"))
    (refuse "missing-human-decision" "humanDecision" "the human decision still required must be named")
  let fallbackOwner ← require (trimmedId (row.field "fallbackOwner"))
    (refuse "missing-fallback-owner" "fallbackOwner" "a fallback owner is required")
  let expiry := refuse "invalid-expiry" "expiresAt" "expiresAt must fall after createdAt and within 90 days of it"
  let createdAt ← require (validInstant D (row.field "createdAt")) expiry
  let expiresAt ← require (validInstant D (row.field "expiresAt")) expiry
  refuseIf (!(0 < expiresAt - createdAt && expiresAt - createdAt ≤ DELEGATION_PROFILE_MAX_LIFETIME_MS)) expiry
  let revocationRef := delegationRevocationRef delegationId
  refuseIf (row.str "revocationRef" ≠ some revocationRef)
    (refuse "missing-revocation-ref" "revocationRef" "revocationRef must name this profile's revocation route")
  return { delegationId, revision, replaces, principal, purpose, link, scope, dataClasses, capabilities
           capabilitySummary, riskTier, budget, notification, approvalLevel, humanDecision, fallbackOwner
           createdAt := D.iso createdAt, expiresAt := D.iso expiresAt, revocationRef }

/-! ### The fold over the ledger -/

inductive DelegationApprovalState
  | pending
  | approved
  | denied
deriving DecidableEq

inductive DelegationProfileStatus
  | pending
  | active
  | denied
  | revoked
  | superseded
  | expired
deriving DecidableEq

inductive DelegationReceiptKind
  | accept
  | revoke
  | replace
deriving DecidableEq

structure DelegationProfileReceipt where
  kind : DelegationReceiptKind
  at_ : Text
  note : Option Text
deriving DecidableEq

structure DelegationProfileState where
  profile : DelegationProfile
  approval : DelegationApprovalState := .pending
  decidedAt : Option Text := none
  acceptedAt : Option Text := none
  revokedAt : Option Text := none
  revokedReason : Option Text := none
  supersededBy : Option Text := none
  supersededAt : Option Text := none
  pendingReplacement : Option Text := none
  spentCostUsd : ℚ := 0
  receipts : List DelegationProfileReceipt := []
deriving DecidableEq

/-- The states by delegation id. -/
abbrev DelegationStates := Record Text DelegationProfileState

/-- Change the state of `id`, if there is one. -/
def modifyState (states : DelegationStates) (id : Option Text)
    (f : DelegationProfileState → DelegationProfileState) : DelegationStates :=
  match id.bind states.get? with
  | none => states
  | some state => states.set (id.getD []) (f state)

/-- An acceptance of the state and its receipt. -/
def DelegationProfileState.accept (state : DelegationProfileState) (at_ : Text) (detail : Option Text) :
    DelegationProfileState :=
  { state with
    approval := .approved
    decidedAt := some at_
    acceptedAt := some at_
    receipts := state.receipts ++ [⟨.accept, at_, detail⟩] }

def DelegationProfileState.supersede (state : DelegationProfileState) (by_ at_ : Text) : DelegationProfileState :=
  if state.supersededBy.isSome then state else { state with supersededBy := some by_, supersededAt := some at_ }

/-- A revocation; of a profile that was still pending it is a denial. -/
def DelegationProfileState.revoke (state : DelegationProfileState) (at_ : Text) (detail : Option Text) :
    DelegationProfileState :=
  { state with
    revokedAt := some at_
    revokedReason := some (detail.getD "revoked by operator".toList)
    approval := if state.approval = .pending then .denied else state.approval
    decidedAt := if state.approval = .pending then some at_ else state.decidedAt
    receipts := state.receipts ++ [⟨.revoke, at_, detail⟩] }

def DelegationProfileState.offerReplacement (state : DelegationProfileState) (by_ : DelegationProfile)
    (detail : Option Text) : DelegationProfileState :=
  if state.pendingReplacement.isSome then state
  else
    { state with
      pendingReplacement := some by_.delegationId
      receipts := state.receipts ++
        [⟨.replace, by_.createdAt, some (detail.getD ("replaced by ".toList ++ by_.delegationId))⟩] }

def applyDecision (states : DelegationStates) (row : Row) : DelegationStates :=
  match (row.str "delegation_id").bind states.get?, validInstant D (row.field "at") with
  | some state, some instant =>
      if state.revokedAt.isSome then states
      else
        let id := row.str "delegation_id"
        let at_ := D.iso instant
        let detail := trimmedText (row.field "note")
        if row.str "decision" = some "accepted".toList ∧ state.approval = .pending then
          let states := modifyState states id fun state => state.accept at_ detail
          modifyState states state.profile.replaces fun predecessor =>
            predecessor.supersede state.profile.delegationId at_
        else if row.str "decision" = some "revoked".toList then
          modifyState states id fun state => state.revoke at_ detail
        else states
  | _, _ => states

/-- The profile and the amount that an admitted execution is charged to. -/
def usageOf (row : Row) : Option (Text × ℚ) := do
  let id ← row.str "delegation_id"
  let receipt ← asRow (row.field "receipt")
  if receipt.str "outcome" = some "in-progress".toList then
    ((asNumber (row.field "delegation_cost_usd")).filter (0 ≤ ·)).map fun cost => (id, cost)
  else none

def foldRow (usageStep : Text) (states : DelegationStates) (row : Row) : DelegationStates :=
  if row.str "step" = some DELEGATION_PROFILE_LEDGER_STEP then
    match validateDelegationProfile D (row.field "profile") with
    | .error _ => states
    | .ok profile =>
        if (states.get? profile.delegationId).isSome then states
        else
          let states := states.set profile.delegationId { profile := profile }
          modifyState states profile.replaces fun predecessor =>
            predecessor.offerReplacement profile (trimmedText (row.field "note"))
  else if row.str "step" = some DELEGATION_DECISION_LEDGER_STEP then applyDecision D states row
  else if row.str "step" = some usageStep then
    match usageOf row with
    | none => states
    | some (id, cost) =>
        modifyState states (some id) fun state => { state with spentCostUsd := state.spentCostUsd + cost }
  else states

def foldStates (usageStep : Text) (rows : List Row) : DelegationStates := rows.foldl (foldRow D usageStep) ∅

/-- Newest profile first, then by id; `localeLe` is `localeCompare` of two ids being at most zero. -/
def foldDelegationProfiles (localeLe : Text → Text → Bool) (usageStep : Text) (rows : List Row) :
    List DelegationProfileState :=
  (foldStates D usageStep rows).values.mergeSort fun left right =>
    match D.parse left.profile.createdAt, D.parse right.profile.createdAt with
    | some l, some r => if r = l then localeLe left.profile.delegationId right.profile.delegationId else decide (r ≤ l)
    | _, _ => localeLe left.profile.delegationId right.profile.delegationId

/-- `findDelegation`. -/
def findDelegation (localeLe : Text → Text → Bool) (usageStep : Text) (rows : List Row) (id : Text) :
    Option DelegationProfileState :=
  (foldDelegationProfiles D localeLe usageStep rows).find? fun state => state.profile.delegationId = id

/-! ### Status and eligibility -/

def delegationProfileStatus (state : DelegationProfileState) (now : ℤ) : DelegationProfileStatus :=
  if state.revokedAt.isSome then if state.approval = .denied then .denied else .revoked
  else if state.supersededBy.isSome then .superseded
  else if (D.parse state.profile.expiresAt).any (· ≤ now) then .expired
  else if state.approval = .approved then .active
  else .pending

structure DelegationEligibilityInput where
  state : Option DelegationProfileState
  action : AutomationAction
  /-- the action's own decision is an approval -/
  approved : Bool
  estimatedCostUsd : Option ℚ
  now : ℤ

structure DelegationFinding where
  code : Text
  detail : Text
deriving DecidableEq

def withinScope (scope : DelegationProfileScope) (action : AutomationAction) : Bool :=
  match scope with
  | .repository repository => action.scope.repo = some repository
  | .inst instanceId => action.scope.inst = some instanceId

/-- The end of the duration budget, counted from the acceptance; none where it is not a number. -/
def durationEnd (state : DelegationProfileState) : Option ℤ :=
  (D.parse (state.acceptedAt.getD state.profile.createdAt)).map fun t => t + state.profile.budget.durationMinutes * 60000

variable (shownUsd : ℚ → Text)

def delegationEligibility (input : DelegationEligibilityInput) : List DelegationFinding :=
  let refuse (code : String) (detail : List Text) : List DelegationFinding := [⟨code.toList, detail.flatten⟩]
  let t (s : String) : Text := s.toList
  let actionId := input.action.actionId
  match input.state with
  | none => refuse "delegation-profile-missing" [t "no delegation profile authorizes action ", actionId]
  | some state =>
      let profile := state.profile
      let id := profile.delegationId
      let projected := state.spentCostUsd + input.estimatedCostUsd.getD 0
      match delegationProfileStatus D state input.now with
      | .revoked | .denied =>
          refuse "delegation-profile-revoked" [t "delegation ", id, t " was revoked at ", state.revokedAt.getD []]
      | .superseded =>
          refuse "delegation-profile-stale" [t "delegation ", id, t " was superseded by ", state.supersededBy.getD []]
      | .expired => refuse "delegation-profile-expired" [t "delegation ", id, t " expired at ", profile.expiresAt]
      | .pending =>
          refuse "delegation-profile-not-approved" [t "delegation ", id, t " has not been accepted by an operator"]
      | .active =>
          if (durationEnd D state).any (· < input.now) then
            refuse "delegation-profile-over-budget" [t "delegation ", id, t " spent its ",
              (toString profile.budget.durationMinutes).toList, t "-minute duration budget"]
          else if profile.budget.costUsd < projected then
            refuse "delegation-profile-over-budget" [t "delegation ", id, t " would spend $", shownUsd projected,
              t " of its $", shownUsd profile.budget.costUsd, t " budget"]
          else if !withinScope profile.scope input.action then
            refuse "delegation-scope-mismatch" [t "action ", actionId, t " is outside delegation ", id, t "'s scope"]
          else if profile.link.actionId ≠ some actionId ∧ profile.link.flowId ≠ input.action.scope.flowId then
            refuse "delegation-link-mismatch" [t "action ", actionId,
              t " is neither the action nor in the flow delegation ", id, t " is linked to"]
          else if input.action.capability ∉ profile.capabilities then
            refuse "delegation-capability-not-allowed" [t "capability ", input.action.capability,
              t " is not in delegation ", id, t "'s allowlist"]
          else if !riskWithinProfile input.action.risk profile.riskTier then
            refuse "delegation-risk-exceeds-profile" [t "a ", input.action.risk.text, t "-risk action exceeds delegation ",
              id, t "'s ", profile.riskTier.text, t " ceiling"]
          else if (input.action.risk.requiresHumanGate || (match input.action.rollback with
              | .irreversible _ => true
              | .reversible _ => false) || decide (profile.approvalLevel = .eachAction)) && !input.approved then
            refuse "delegation-human-gate-required" [t "action ", actionId,
              t " still needs its own operator approval under delegation ", id]
          else []

/-! ### What a row can do -/

section Rows

variable {D : Dates} {shownUsd : ℚ → Text}

/-- How a row changes a state that it charges `cost`: the record stays, what ended stays ended. -/
structure Evolves (cost : ℚ) (st st' : DelegationProfileState) : Prop where
  profile : st'.profile = st.profile
  revoked : st.revokedAt.isSome = true → st'.revokedAt.isSome = true
  superseded : st.supersededBy.isSome = true → st'.supersededBy.isSome = true
  spent : st'.spentCostUsd = st.spentCostUsd + cost

/-- A state as its first row leaves it. -/
structure Opened (id : Text) (st : DelegationProfileState) : Prop where
  id_eq : st.profile.delegationId = id
  budget : 0 ≤ st.profile.budget.costUsd
  spent : st.spentCostUsd = 0

/-- The states before and after a row that charges `charge id` to the profile `id`. -/
def Grows (charge : Text → ℚ) (states states' : DelegationStates) : Prop := ∀ id,
  match states.get? id with
  | some st => ∃ st', states'.get? id = some st' ∧ Evolves (charge id) st st'
  | none => ∀ st', states'.get? id = some st' → Opened id st'

def noCharge : Text → ℚ := fun _ => 0

theorem Evolves.refl (st : DelegationProfileState) : Evolves 0 st st := ⟨rfl, id, id, (add_zero _).symm⟩

theorem Evolves.trans {a b c : DelegationProfileState} (h : Evolves 0 a b) (h' : Evolves 0 b c) : Evolves 0 a c where
  profile := h'.profile.trans h.profile
  revoked := fun hr => h'.revoked (h.revoked hr)
  superseded := fun hs => h'.superseded (h.superseded hs)
  spent := by rw [h'.spent, h.spent, add_zero, add_zero]

theorem Opened.evolves {id : Text} {st st' : DelegationProfileState} (h : Opened id st) (h' : Evolves 0 st st') :
    Opened id st' where
  id_eq := by rw [h'.profile]; exact h.id_eq
  budget := by rw [h'.profile]; exact h.budget
  spent := by rw [h'.spent, h.spent, add_zero]

theorem Grows.refl (states : DelegationStates) : Grows noCharge states states := by
  intro id
  cases h : states.get? id with
  | none => simp
  | some st => exact ⟨st, rfl, Evolves.refl st⟩

theorem Grows.trans {a b c : DelegationStates} (h : Grows noCharge a b) (h' : Grows noCharge b c) :
    Grows noCharge a c := by
  intro id
  have hab := h id
  have hbc := h' id
  cases ha : a.get? id with
  | some st =>
      rw [ha] at hab
      obtain ⟨st', hst', hev⟩ := hab
      rw [hst'] at hbc
      obtain ⟨st'', hst'', hev'⟩ := hbc
      exact ⟨st'', hst'', hev.trans hev'⟩
  | none =>
      rw [ha] at hab
      intro st'' hst''
      cases hb : b.get? id with
      | none =>
          rw [hb] at hbc
          exact hbc st'' hst''
      | some st' =>
          rw [hb] at hbc
          obtain ⟨u, hu, hev⟩ := hbc
          rw [hst''] at hu
          obtain rfl := Option.some.inj hu
          exact (hab st' hb).evolves hev

/-- Changing one state, with `charge` on it. -/
theorem modifyState_grows {states : DelegationStates} {id : Option Text} {charge : Text → ℚ}
    {f : DelegationProfileState → DelegationProfileState} (hf : ∀ k ∈ id, ∀ st, Evolves (charge k) st (f st))
    (hother : ∀ k, id ≠ some k → charge k = 0) : Grows charge states (modifyState states id f) := by
  intro k
  have hkeep : ∀ st, id ≠ some k → Evolves (charge k) st st := by
    intro st hne
    rw [hother k hne]
    exact Evolves.refl st
  unfold modifyState
  cases hid : id.bind states.get? with
  | none =>
      cases hk : states.get? k with
      | none => simp
      | some st =>
          refine ⟨st, rfl, hkeep st ?_⟩
          rintro rfl
          simp [hk] at hid
  | some st₀ =>
      obtain ⟨k₀, rfl, hk₀⟩ := Option.bind_eq_some_iff.mp hid
      simp only [Option.getD_some]
      by_cases heq : k = k₀
      · subst heq
        rw [hk₀]
        exact ⟨f st₀, Record.get?_set_self states k (f st₀), hf k rfl st₀⟩
      · rw [Record.get?_set_of_ne states (f st₀) heq]
        cases hk : states.get? k with
        | none => simp
        | some st => exact ⟨st, rfl, hkeep st fun h => heq (Option.some.inj h).symm⟩

theorem modifyState_grows_noCharge {states : DelegationStates} {id : Option Text}
    {f : DelegationProfileState → DelegationProfileState} (hf : ∀ st, Evolves 0 st (f st)) :
    Grows noCharge states (modifyState states id f) :=
  modifyState_grows (fun _ _ => hf) fun _ _ => rfl

theorem accept_evolves (st : DelegationProfileState) (at_ : Text) (detail : Option Text) :
    Evolves 0 st (st.accept at_ detail) :=
  ⟨rfl, id, id, (add_zero _).symm⟩

theorem revoke_evolves (st : DelegationProfileState) (at_ : Text) (detail : Option Text) :
    Evolves 0 st (st.revoke at_ detail) :=
  ⟨rfl, fun _ => rfl, id, (add_zero _).symm⟩

theorem supersede_evolves (st : DelegationProfileState) (by_ at_ : Text) : Evolves 0 st (st.supersede by_ at_) := by
  unfold DelegationProfileState.supersede
  split
  · exact Evolves.refl st
  · exact ⟨rfl, id, fun _ => rfl, (add_zero _).symm⟩

theorem offerReplacement_evolves (st : DelegationProfileState) (by_ : DelegationProfile) (detail : Option Text) :
    Evolves 0 st (st.offerReplacement by_ detail) := by
  unfold DelegationProfileState.offerReplacement
  split
  · exact Evolves.refl st
  · exact ⟨rfl, id, id, (add_zero _).symm⟩

theorem applyDecision_grows (states : DelegationStates) (row : Row) :
    Grows noCharge states (applyDecision D states row) := by
  unfold applyDecision
  split
  · split
    · exact Grows.refl states
    · simp only
      split
      · refine Grows.trans ?_ (modifyState_grows_noCharge fun st => supersede_evolves st _ _)
        exact modifyState_grows_noCharge fun st => accept_evolves st _ _
      · split
        · exact modifyState_grows_noCharge fun st => revoke_evolves st _ _
        · exact Grows.refl states
  · exact Grows.refl states

/-- A validated budget is not negative. -/
theorem validateBudget_nonneg {value : Option Json} {b : DelegationBudget} (h : validateBudget value = some b) :
    0 ≤ b.costUsd := by
  unfold validateBudget at h
  simp only [Option.bind_eq_bind, Option.bind_eq_some_iff, Option.filter_eq_some_iff] at h
  obtain ⟨row, -, cost, ⟨-, hcost⟩, minutes, -, hb⟩ := h
  obtain rfl := Option.some.inj hb
  simp only [Bool.and_eq_true, decide_eq_true_eq] at hcost
  exact hcost.1

theorem budget_nonneg_of_validateDelegationProfile {value : Option Json} {profile : DelegationProfile}
    (h : validateDelegationProfile D value = .ok profile) : 0 ≤ profile.budget.costUsd := by
  simp only [validateDelegationProfile, bind_eq_ok, require_eq_ok, refuseIf_eq_ok] at h
  obtain ⟨row, -, -, -, -, -, -, -, delegationId, -, principal, -, purpose, -, ⟨revision, replaces⟩, -, link, -, scope, -,
    dataClasses, -, capabilities, -, summary, -, risk, -, budget, hbudget, notification, -, level, -, decision, -,
    owner, -, createdAt, -, expiresAt, -, -, -, -, -, hprofile⟩ := h
  have hb : profile.budget = budget := by
    rw [← Except.ok.inj hprofile]
  rw [hb]
  exact validateBudget_nonneg hbudget

/-- What a row charges, and to whom. -/
def chargeOf (usageStep : Text) (row : Row) : Option (Text × ℚ) :=
  if row.str "step" = some DELEGATION_PROFILE_LEDGER_STEP then none
  else if row.str "step" = some DELEGATION_DECISION_LEDGER_STEP then none
  else if row.str "step" = some usageStep then usageOf row
  else none

def chargeTo (charge : Option (Text × ℚ)) (id : Text) : ℚ :=
  match charge with
  | some (k, cost) => if k = id then cost else 0
  | none => 0

theorem foldRow_grows (usageStep : Text) (states : DelegationStates) (row : Row) :
    Grows (chargeTo (chargeOf usageStep row)) states (foldRow D usageStep states row) := by
  unfold foldRow chargeOf
  split
  · show Grows noCharge _ _
    split
    · exact Grows.refl states
    next profile hprofile =>
      split
      · exact Grows.refl states
      next hfresh =>
        refine Grows.trans ?_ (modifyState_grows_noCharge fun st => offerReplacement_evolves st _ _)
        intro id
        by_cases hid : id = profile.delegationId
        · subst hid
          rw [Option.not_isSome_iff_eq_none] at hfresh
          rw [hfresh, Record.get?_set_self]
          rintro st' hst'
          obtain rfl := Option.some.inj hst'
          exact ⟨rfl, budget_nonneg_of_validateDelegationProfile hprofile, rfl⟩
        · rw [Record.get?_set_of_ne _ _ hid]
          exact Grows.refl states id
  · split
    · exact applyDecision_grows states row
    · split
      · split
        next hnone =>
          rw [hnone]
          exact Grows.refl states
        next id cost hsome =>
          rw [hsome]
          apply modifyState_grows
          · intro k hk st
            obtain rfl := Option.some.inj hk
            refine ⟨rfl, fun hr => hr, fun hs => hs, ?_⟩
            simp [chargeTo]
          · intro k hk
            have hne : id ≠ k := fun h => hk (congrArg some h)
            simp [chargeTo, hne]
      · exact Grows.refl states

/-- What later rows leave of a state. -/
structure Outlives (st st' : DelegationProfileState) : Prop where
  profile : st'.profile = st.profile
  revoked : st.revokedAt.isSome = true → st'.revokedAt.isSome = true
  superseded : st.supersededBy.isSome = true → st'.supersededBy.isSome = true

theorem foldl_outlives {usageStep : Text} {states : DelegationStates} {id : Text} {st : DelegationProfileState}
    (more : List Row) (h : states.get? id = some st) :
    ∃ st', (more.foldl (foldRow D usageStep) states).get? id = some st' ∧ Outlives st st' := by
  induction more generalizing states st with
  | nil => exact ⟨st, h, rfl, fun hr => hr, fun hs => hs⟩
  | cons row more ih =>
      have hgrows := foldRow_grows (D := D) usageStep states row id
      rw [h] at hgrows
      obtain ⟨st₁, hst₁, hev⟩ := hgrows
      obtain ⟨st₂, hst₂, hout⟩ := ih hst₁
      exact ⟨st₂, hst₂, hout.profile.trans hev.profile, fun hr => hout.revoked (hev.revoked hr),
        fun hs => hout.superseded (hev.superseded hs)⟩

/-- Every state is filed under the id of its profile. -/
theorem foldStates_keyed {usageStep : Text} (rows : List Row) {id : Text} {st : DelegationProfileState}
    (h : (foldStates D usageStep rows).get? id = some st) : st.profile.delegationId = id := by
  induction rows using List.reverseRecOn generalizing st with
  | nil => cases h
  | append_singleton rows row ih =>
      rw [foldStates, List.foldl_append, List.foldl_cons, List.foldl_nil, ← foldStates] at h
      have hgrows := foldRow_grows (D := D) usageStep (foldStates D usageStep rows) row id
      cases hold : (foldStates D usageStep rows).get? id with
      | none =>
          rw [hold] at hgrows
          exact (hgrows st h).id_eq
      | some st₀ =>
          rw [hold] at hgrows
          obtain ⟨st', hst', hev⟩ := hgrows
          rw [h] at hst'
          obtain rfl := Option.some.inj hst'
          rw [hev.profile]
          exact ih hold

/-- Sorting does not change which state is found by its id. -/
theorem findDelegation_eq (localeLe : Text → Text → Bool) (usageStep : Text) (rows : List Row) (id : Text) :
    findDelegation D localeLe usageStep rows id = (foldStates D usageStep rows).get? id := by
  have hmem : ∀ st, st ∈ foldDelegationProfiles D localeLe usageStep rows ↔
      ∃ k, (foldStates D usageStep rows).get? k = some st := by
    intro st
    rw [foldDelegationProfiles, List.mem_mergeSort, Record.mem_values_iff]
  unfold findDelegation
  cases hfind : (foldDelegationProfiles D localeLe usageStep rows).find? fun st => st.profile.delegationId = id with
  | some st =>
      obtain ⟨k, hk⟩ := (hmem st).mp (List.mem_of_find?_eq_some hfind)
      have hid := List.find?_some hfind
      rw [decide_eq_true_eq] at hid
      rw [← hid, foldStates_keyed rows hk, hk]
  | none =>
      cases hget : (foldStates D usageStep rows).get? id with
      | none => rfl
      | some st =>
          have hno := List.find?_eq_none.mp hfind st ((hmem st).mpr ⟨id, hget⟩)
          exact absurd (decide_eq_true (foldStates_keyed rows hget)) hno

/-! ### Authority -/

/-- The profile has lost its authority. -/
def Over (status : DelegationProfileStatus) : Prop :=
  status = .revoked ∨ status = .denied ∨ status = .superseded ∨ status = .expired

theorem over_iff {st : DelegationProfileState} {now : ℤ} :
    Over (delegationProfileStatus D st now) ↔
      st.revokedAt.isSome = true ∨ st.supersededBy.isSome = true ∨
        (D.parse st.profile.expiresAt).any (· ≤ now) = true := by
  unfold Over delegationProfileStatus
  by_cases hr : st.revokedAt.isSome = true
  · by_cases hd : st.approval = .denied <;> simp [hr, hd]
  · by_cases hs : st.supersededBy.isSome = true
    · simp [hr, hs]
    · by_cases he : (D.parse st.profile.expiresAt).any (· ≤ now) = true
      · simp [hr, hs, he]
      · by_cases ha : st.approval = .approved <;> simp [hr, hs, he, ha]

theorem Outlives.over {st st' : DelegationProfileState} {now now' : ℤ} (h : Outlives st st') (hnow : now ≤ now')
    (hover : Over (delegationProfileStatus D st now)) : Over (delegationProfileStatus D st' now') := by
  rw [over_iff] at hover ⊢
  rcases hover with hr | hs | he
  · exact .inl (h.revoked hr)
  · exact .inr (.inl (h.superseded hs))
  · refine .inr (.inr ?_)
    rw [h.profile]
    cases hp : D.parse st.profile.expiresAt with
    | none => simp [hp] at he
    | some t =>
        simp only [hp, Option.any_some, decide_eq_true_eq] at he ⊢
        omega

theorem not_active_of_over {status : DelegationProfileStatus} (h : Over status) : status ≠ .active := by
  rcases h with h | h | h | h <;> simp [h]

/-- An eligible action has an active profile, and its estimate fits in the rest of the budget. -/
theorem active_of_eligible {input : DelegationEligibilityInput} (h : delegationEligibility D shownUsd input = []) :
    ∃ st, input.state = some st ∧ delegationProfileStatus D st input.now = .active ∧
      st.spentCostUsd + input.estimatedCostUsd.getD 0 ≤ st.profile.budget.costUsd := by
  unfold delegationEligibility at h
  cases hstate : input.state with
  | none => simp [hstate] at h
  | some st =>
      refine ⟨st, rfl, ?_⟩
      simp only [hstate] at h
      cases hstatus : delegationProfileStatus D st input.now with
      | active =>
          simp only [hstatus] at h
          refine ⟨rfl, ?_⟩
          by_contra hover
          rw [not_le] at hover
          split at h
          · cases h
          · cases h
      | _ => simp [hstatus] at h

/-! ### Budget -/

variable (D shownUsd)

/-- A request to run an action under the profile `id`, and the usage row it leaves when it is admitted. -/
structure DelegatedAct where
  id : Text
  action : AutomationAction
  approved : Bool
  estimatedCostUsd : ℚ
  now : ℤ
  usage : Row

inductive LedgerEvent
  /-- a row that charges nothing -/
  | row (row : Row)
  | act (act : DelegatedAct)

/-- An eligible action appends its usage row; one that is refused appends nothing. -/
def LedgerStep (localeLe : Text → Text → Bool) (usageStep : Text) (rows : List Row) (e : LedgerEvent) (rows' : List Row) :
    Prop :=
  match e with
  | .row row => chargeOf usageStep row = none ∧ rows' = rows ++ [row]
  | .act a =>
      0 ≤ a.estimatedCostUsd ∧
      if delegationEligibility D shownUsd
          ⟨findDelegation D localeLe usageStep rows a.id, a.action, a.approved, some a.estimatedCostUsd, a.now⟩ = [] then
        chargeOf usageStep a.usage = some (a.id, a.estimatedCostUsd) ∧ rows' = rows ++ [a.usage]
      else rows' = rows

variable {D shownUsd}

/-- No profile has spent more than its budget. -/
def WithinBudget (states : DelegationStates) : Prop :=
  ∀ id st, states.get? id = some st → st.spentCostUsd ≤ st.profile.budget.costUsd

theorem withinBudget_of_grows {charge : Text → ℚ} {states states' : DelegationStates}
    (hgrows : Grows charge states states')
    (hcharge : ∀ id st, states.get? id = some st → st.spentCostUsd + charge id ≤ st.profile.budget.costUsd) :
    WithinBudget states' := by
  intro id st' hst'
  have hid := hgrows id
  cases hold : states.get? id with
  | none =>
      rw [hold] at hid
      obtain ⟨-, hbudget, hspent⟩ := hid st' hst'
      rw [hspent]
      exact hbudget
  | some st =>
      rw [hold] at hid
      obtain ⟨st₁, hst₁, hev⟩ := hid
      rw [hst'] at hst₁
      obtain rfl := Option.some.inj hst₁
      rw [hev.spent, hev.profile]
      exact hcharge id st hold

theorem withinBudget_append {usageStep : Text} {rows : List Row} {row : Row}
    (hcharge : ∀ id st, (foldStates D usageStep rows).get? id = some st →
      st.spentCostUsd + chargeTo (chargeOf usageStep row) id ≤ st.profile.budget.costUsd) :
    WithinBudget (foldStates D usageStep (rows ++ [row])) := by
  rw [foldStates, List.foldl_append, List.foldl_cons, List.foldl_nil, ← foldStates]
  exact withinBudget_of_grows (foldRow_grows usageStep _ row) hcharge

theorem withinBudget_step {localeLe : Text → Text → Bool} {usageStep : Text} {rows rows' : List Row} {e : LedgerEvent}
    (h : WithinBudget (foldStates D usageStep rows)) (hs : LedgerStep D shownUsd localeLe usageStep rows e rows') :
    WithinBudget (foldStates D usageStep rows') := by
  cases e with
  | row row =>
      obtain ⟨hfree, rfl⟩ := hs
      apply withinBudget_append
      intro id st hst
      simpa [hfree, chargeTo] using h id st hst
  | act a =>
      obtain ⟨-, hs⟩ := hs
      split at hs
      next heligible =>
        obtain ⟨hcharge, rfl⟩ := hs
        obtain ⟨st₀, hst₀, -, hfits⟩ := active_of_eligible heligible
        simp only [findDelegation_eq] at hst₀
        apply withinBudget_append
        intro id st hst
        rw [hcharge]
        by_cases hid : a.id = id
        · subst hid
          rw [hst₀] at hst
          obtain rfl := Option.some.inj hst
          simpa [chargeTo] using hfits
        · simpa [chargeTo, hid] using h id st hst
      next =>
        obtain rfl := hs
        exact h

end Rows

/-- A profile that is over reads over at every later row and time and no action is eligible under it; its record
never changes; and in every run of the ledger in which only eligible actions charge a profile, its spent cost is
within its budget. -/
theorem profile_loses_authority_within_budget (D : Dates) (shownUsd : ℚ → Text) (localeLe : Text → Text → Bool)
    (usageStep : Text) :
    (∀ rows more id st, findDelegation D localeLe usageStep rows id = some st →
      ∃ st', findDelegation D localeLe usageStep (rows ++ more) id = some st' ∧ st'.profile = st.profile ∧
        ∀ now now', now ≤ now' → Over (delegationProfileStatus D st now) →
          delegationProfileStatus D st' now' ≠ .active ∧
          ∀ input : DelegationEligibilityInput, input.state = some st' → input.now = now' →
            delegationEligibility D shownUsd input ≠ []) ∧
    (∀ es rows, Run (LedgerStep D shownUsd localeLe usageStep) [] es rows →
      ∀ id st, findDelegation D localeLe usageStep rows id = some st →
        st.spentCostUsd ≤ st.profile.budget.costUsd) := by
  constructor
  · intro rows more id st hfind
    rw [findDelegation_eq] at hfind
    obtain ⟨st', hst', hout⟩ := foldl_outlives (D := D) more hfind
    refine ⟨st', ?_, hout.profile, ?_⟩
    · rw [findDelegation_eq, foldStates, List.foldl_append]
      exact hst'
    · intro now now' hnow hover
      have hlater := hout.over hnow hover
      refine ⟨not_active_of_over hlater, ?_⟩
      rintro input hstate rfl heligible
      obtain ⟨st₀, hst₀, hactive, -⟩ := active_of_eligible heligible
      rw [hstate] at hst₀
      obtain rfl := Option.some.inj hst₀
      exact not_active_of_over hlater hactive
  · intro es rows hr id st hfind
    rw [findDelegation_eq] at hfind
    have hwithin : WithinBudget (foldStates D usageStep rows) :=
      hr.invariant (I := fun rows => WithinBudget (foldStates D usageStep rows))
        (fun _ _ _ h hs => withinBudget_step h hs) (fun id st h => by cases h)
    exact hwithin id st hfind

/-! ### One profile -/

/-- Dates of the first minute. -/
def firstMinute : Dates where
  parse t := if t = ['0'] then some 0 else if t = ['1'] then some 60000 else none
  iso ms := if ms = 0 then ['0'] else ['1']

def rowOf (l : List (String × Json)) : Row := l.map fun e => (e.1.toList, e.2)

/-- A profile with a budget of 5 dollars, from its creation to the end of the minute. -/
def fiveDollarProfile : Row :=
  let text (t : String) : Json := .str t.toList
  rowOf [("step", .str DELEGATION_PROFILE_LEDGER_STEP), ("profile", .obj (rowOf [
    ("version", text "delegation-profile-v1"), ("delegationId", text "d"), ("principal", text "p"), ("purpose", text "u"),
    ("revision", .num "1".toList), ("link", .obj (rowOf [("actionId", text "a")])),
    ("scope", .obj (rowOf [("kind", text "repository"), ("repository", text "r")])), ("dataClasses", .arr [text "c"]),
    ("capabilities", .arr [text "read"]), ("capabilitySummary", text "s"), ("riskTier", text "low"),
    ("budget", .obj (rowOf [("costUsd", .num "5".toList), ("durationMinutes", .num "1".toList)])),
    ("notification", text "silent"), ("approvalLevel", text "profile"), ("humanDecision", text "h"),
    ("fallbackOwner", text "o"), ("createdAt", text "0"), ("expiresAt", text "1"),
    ("revocationRef", text "/v1/operator-agent/delegations/decision#d")]))]

def decisionRow (decision : String) : Row :=
  rowOf [("step", .str DELEGATION_DECISION_LEDGER_STEP), ("delegation_id", .str ['d']), ("at", .str ['0']),
    ("decision", .str decision.toList)]

def fourDollarAct : DelegatedAct where
  id := ['d']
  action :=
    { actionId := ['a'], capability := "read".toList, summary := ['s'], scope := ⟨none, none, some ['r'], none⟩
      risk := .low, preconditions := [], maxAgeSeconds := 1, idempotencyKey := ['k'], createdAt := ['0'], expiresAt := ['1']
      dryRun := false, approvalPolicy := .none, rollback := .reversible ['p'], receiptRef := ['f'] }
  approved := false
  estimatedCostUsd := 4
  now := 0
  usage := rowOf [("step", .str "use".toList), ("delegation_id", .str ['d']), ("delegation_cost_usd", .num "4".toList),
    ("receipt", .obj (rowOf [("outcome", .str "in-progress".toList)]))]

/-- The profile of the row. -/
def fiveDollars : DelegationProfile where
  delegationId := ['d']
  revision := 1
  replaces := none
  principal := ['p']
  purpose := ['u']
  link := ⟨none, some ['a']⟩
  scope := .repository ['r']
  dataClasses := [['c']]
  capabilities := ["read".toList]
  capabilitySummary := ['s']
  riskTier := .low
  budget := ⟨5, 1⟩
  notification := .silent
  approvalLevel := .profile
  humanDecision := ['h']
  fallbackOwner := ['o']
  createdAt := ['0']
  expiresAt := ['1']
  revocationRef := "/v1/operator-agent/delegations/decision#d".toList

/-- Any ledger that starts with the profile. -/
theorem foldStates_fiveDollarProfile (usageStep : Text) (more : List Row) :
    foldStates firstMinute usageStep (fiveDollarProfile :: more) =
      more.foldl (foldRow firstMinute usageStep) ((∅ : DelegationStates).set ['d'] { profile := fiveDollars }) := by
  have hvalid : (validateDelegationProfile firstMinute (fiveDollarProfile.field "profile")).toOption = some fiveDollars := by
    decide +kernel
  have hok : validateDelegationProfile firstMinute (fiveDollarProfile.field "profile") = .ok fiveDollars := by
    cases h : validateDelegationProfile firstMinute (fiveDollarProfile.field "profile") with
    | error e => simp [h, Except.toOption] at hvalid
    | ok profile =>
        rw [h] at hvalid
        rw [Option.some.inj hvalid]
  have hstep : fiveDollarProfile.str "step" = some DELEGATION_PROFILE_LEDGER_STEP := rfl
  have hfold : foldRow firstMinute usageStep ∅ fiveDollarProfile =
      (∅ : DelegationStates).set ['d'] { profile := fiveDollars } := by
    simp only [foldRow, hstep, if_true, hok]
    rfl
  rw [foldStates, List.foldl_cons, hfold]

/-- A profile that was denied stays over after a later acceptance; one that was accepted admits the first of two
actions of four dollars and stays within its five. -/
theorem five_dollar_profile :
    (∃ st, findDelegation firstMinute (fun _ _ => true) "use".toList [fiveDollarProfile, decisionRow "revoked"] ['d'] = some st ∧
      delegationProfileStatus firstMinute st 0 = .denied ∧
      ∃ st', findDelegation firstMinute (fun _ _ => true) "use".toList
          ([fiveDollarProfile, decisionRow "revoked"] ++ [decisionRow "accepted"]) ['d'] = some st' ∧
        delegationProfileStatus firstMinute st' 1 ≠ .active) ∧
    ∃ rows st, Run (LedgerStep firstMinute (fun _ => []) (fun _ _ => true) "use".toList) []
        [.row fiveDollarProfile, .row (decisionRow "accepted"), .act fourDollarAct, .act fourDollarAct] rows ∧
      findDelegation firstMinute (fun _ _ => true) "use".toList rows ['d'] = some st ∧
      st.spentCostUsd = 4 ∧ st.spentCostUsd ≤ st.profile.budget.costUsd := by
  have hall := profile_loses_authority_within_budget firstMinute (fun _ => []) (fun _ _ => true) "use".toList
  constructor
  · have hdenied : ((foldStates firstMinute "use".toList [fiveDollarProfile, decisionRow "revoked"]).get? ['d']).map
        (fun st => delegationProfileStatus firstMinute st 0) = some .denied := by
      rw [foldStates_fiveDollarProfile]
      decide +kernel
    obtain ⟨st, hst, hstatus⟩ := Option.map_eq_some_iff.mp hdenied
    rw [← findDelegation_eq (fun _ _ => true)] at hst
    obtain ⟨st', hst', -, hover⟩ := hall.1 _ [decisionRow "accepted"] ['d'] st hst
    exact ⟨st, hst, hstatus, st', hst', (hover 0 1 (by decide) (.inr (.inl hstatus))).1⟩
  · have hrows : ((foldStates firstMinute "use".toList
        [fiveDollarProfile, decisionRow "accepted", fourDollarAct.usage]).get? ['d']).map
        (fun st => st.spentCostUsd) = some 4 := by
      rw [foldStates_fiveDollarProfile]
      decide +kernel
    obtain ⟨st, hst, hspent⟩ := Option.map_eq_some_iff.mp hrows
    rw [← findDelegation_eq (fun _ _ => true)] at hst
    have hrun : Run (LedgerStep firstMinute (fun _ => []) (fun _ _ => true) "use".toList) []
        [.row fiveDollarProfile, .row (decisionRow "accepted"), .act fourDollarAct, .act fourDollarAct]
        [fiveDollarProfile, decisionRow "accepted", fourDollarAct.usage] := by
      refine .cons (t := [fiveDollarProfile]) ⟨by decide +kernel, rfl⟩
        (.cons (t := [fiveDollarProfile, decisionRow "accepted"]) ⟨by decide +kernel, rfl⟩
        (.cons (t := [fiveDollarProfile, decisionRow "accepted", fourDollarAct.usage]) ⟨by decide +kernel, ?_⟩
        (.single ⟨by decide +kernel, ?_⟩)))
      · rw [findDelegation_eq, foldStates_fiveDollarProfile, if_pos (by decide +kernel)]
        exact ⟨by decide +kernel, rfl⟩
      · rw [findDelegation_eq, foldStates_fiveDollarProfile, if_neg (by decide +kernel)]
    exact ⟨_, st, hrun, hst, hspent, hall.2 _ _ hrun ['d'] st hst⟩

end Remudero.Automation
