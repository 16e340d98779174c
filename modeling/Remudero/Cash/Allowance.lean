import Remudero.Lib.Record
import Remudero.Lib.Text
import Remudero.Lib.Transition

/-! # The cash allowance

`reserveOpenWeightBudget` and `settleOpenWeightBudget` of `lib/worker-provider.ts` with the
accounting rule of `lib/cash-accounting.ts`.  One file holds the reservations of one UTC day: a
reservation is refused when the committed total (the settled amount of a settled reservation, the
full amount of any other) with the new amount would pass a limit, and a receipt settles the
reservation whose identity it carries, once.  A file of another day is started afresh by a
reservation; a settlement leaves the day alone.  In fleet mode (a shared path is configured) the
file must exist, carry a cap of its own, and not be of a later day than the request.

A call reads the file, computes the new state and writes it; calls are atomic.  The file is kept
as the value its JSON text stands for.  The field `book` is for the statements only: it lists every
reservation ever granted under its day and request id, newest first, with the row last written
for it.

Amounts are exact.  A number that is not finite is `⊤`; it comes from a deployment that names a
property every object inherits, for which the price table has no row but the lookup still finds
something. -/

namespace Remudero.Cash

open Remudero.Lib

/-! ### Accounting of one request -/

/-- A dollar amount; `⊤` is a number that is not finite. -/
abbrev Usd := WithTop ℚ

def Usd.isFinite : Usd → Bool
  | ⊤ => false
  | (_ : ℚ) => true

/-- `Math.min`. -/
def Usd.mathMin : Usd → Usd → Usd
  | (a : ℚ), (b : ℚ) => ((min a b : ℚ) : Usd)
  | _, _ => ⊤

structure CashRequestIdentity where
  requestId : Text
  attemptId : Text
  provider : Text
  deployment : Text
  endpoint : Text
deriving DecidableEq

inductive AccountingState where
  | heldUnknown
  | usageRated
  | knownUnbilled
deriving DecidableEq

/-- A row of the allowance file; `settledUsd` is `none` while the amount is unknown. -/
structure CashReservation where
  reservedUsd : Usd
  settledUsd : Option Usd := none
  settledReason : Option Text := none
  heldReason : Option Text := none
  deployment : Option Text := none
  identity : Option CashRequestIdentity := none
  accountingState : Option AccountingState := none
  usageEstimateUsd : Option Usd := none
  billedUsd : Option Usd := none
  heldUsd : Option Usd := none
deriving DecidableEq

structure CashAccountingEvidence where
  identity : Option CashRequestIdentity := none
  actualUsd : Option Usd := none
  reason : Option Text := none
  unbilled : Bool := false

def validCashIdentity (identity : CashRequestIdentity) : Bool :=
  identity.provider == "cash".toList &&
    [identity.requestId, identity.attemptId, identity.deployment, identity.endpoint].all
      fun part => !part.isEmpty

def cashIdentityMatches (a : CashRequestIdentity) (b : Option CashRequestIdentity) : Bool :=
  match b with
  | none => false
  | some b =>
      validCashIdentity b && a.requestId == b.requestId && a.attemptId == b.attemptId &&
        a.provider == b.provider && a.deployment == b.deployment && a.endpoint == b.endpoint

/-- The row after a receipt.  A settled row, a receipt of another request, an amount that is not
finite or negative and an unbilled receipt with an amount change nothing; a receipt without an
amount leaves the whole reservation held. -/
def recordCashAccounting (row : CashReservation) (evidence : CashAccountingEvidence) :
    CashReservation :=
  match row.identity with
  | none => row
  | some identity =>
      if row.settledUsd.isSome || !cashIdentityMatches identity evidence.identity then row
      else if evidence.actualUsd.any fun a => !a.isFinite || decide (a < 0) then row
      else if evidence.unbilled && evidence.actualUsd != some 0 then row
      else
        let settledUsd := evidence.actualUsd.map fun a => Usd.mathMin a row.reservedUsd
        { row with
          settledUsd := settledUsd
          accountingState :=
            if settledUsd.isNone then some .heldUnknown
            else if evidence.unbilled then some .knownUnbilled else some .usageRated
          usageEstimateUsd := if evidence.unbilled then none else settledUsd
          billedUsd := if evidence.unbilled then some 0 else none
          heldUsd := if settledUsd.isNone then some row.reservedUsd else some 0
          heldReason :=
            if evidence.reason.isSome && settledUsd.isNone then evidence.reason else row.heldReason
          settledReason :=
            if evidence.reason.isSome && settledUsd.isSome then evidence.reason
            else row.settledReason }

/-- What a row counts for: `settledUsd ?? reservedUsd`. -/
def CashReservation.committedUsd (row : CashReservation) : Usd :=
  row.settledUsd.getD row.reservedUsd

/-! ### Prices -/

structure LongContextPrice where
  thresholdInputTokens : ℤ
  inputUsdPerMillion : ℚ
  outputUsdPerMillion : ℚ
  cachedInputUsdPerMillion : Option ℚ := none
  cacheWriteUsdPerMillion : Option ℚ := none
  reservationInputUsdPerMillion : Option ℚ := none

structure OpenWeightPrice where
  inputUsdPerMillion : ℚ
  outputUsdPerMillion : ℚ
  cachedInputUsdPerMillion : Option ℚ := none
  cacheWriteUsdPerMillion : Option ℚ := none
  reservationInputUsdPerMillion : Option ℚ := none
  longContext : Option LongContextPrice := none

def foundryHaikuPrice : OpenWeightPrice :=
  { inputUsdPerMillion := 1 / 10, outputUsdPerMillion := 1 / 2
    cachedInputUsdPerMillion := some (1 / 100), cacheWriteUsdPerMillion := some (1 / 5)
    reservationInputUsdPerMillion := some (1 / 5)
    longContext := some ⟨100000, 1 / 2, 5 / 2, some (5 / 100), some 1, some 1⟩ }

def openWeightPrices : List (Text × OpenWeightPrice) :=
  [("DeepSeek-V4-Flash".toList, ⟨19 / 100, 51 / 100, some (28 / 1000), none, some (19 / 100), none⟩),
   ("DeepSeek-V4.1-Flash".toList, ⟨3 / 10, 12 / 10, some (6 / 1000), none, some (3 / 10), none⟩),
   ("Kimi-K2.6".toList, ⟨95 / 100, 4, some (16 / 100), none, some (95 / 100), none⟩),
   ("claude-haiku-5-5".toList, foundryHaikuPrice),
   ("gpt-oss-120b".toList, ⟨15 / 100, 6 / 10, none, none, none, none⟩),
   ("gpt-5-nano".toList, ⟨5 / 100, 4 / 10, none, none, none, none⟩),
   ("gpt-5.6-luna".toList, ⟨2 / 10, 12 / 10, none, none, none, none⟩),
   ("gpt-5.6-terra".toList, ⟨2, 12, none, none, none, none⟩),
   ("gpt-6-luna".toList, ⟨1 / 10, 1 / 2, none, none, none, some ⟨272000, 2 / 10, 75 / 100, none, none, none⟩⟩),
   ("gpt-6.1-sol".toList, ⟨2, 10, some (1 / 10), some (5 / 2), some (5 / 2),
     some ⟨272000, 4, 15, some (2 / 10), some 5, some 5⟩⟩),
   ("gpt-6.1-terra".toList, ⟨1, 5, some (5 / 100), some (5 / 4), some (5 / 4),
     some ⟨-1, 2, 15 / 2, some (1 / 10), some (5 / 2), some (5 / 2)⟩⟩)]

def foundryClaudePrices : List (Text × OpenWeightPrice) :=
  [("claude-haiku-5-5".toList, foundryHaikuPrice),
   ("claude-opus-5-5".toList, ⟨4, 20, none, none, some 8, none⟩),
   ("claude-sonnet-5-5".toList, ⟨2, 10, some (1 / 10), none, some 4, none⟩)]

def isFoundryClaudeDeployment (deployment : Text) : Bool :=
  (foundryClaudePrices.lookup deployment).isSome

/-- The properties every object inherits. -/
def inheritedProperties : List Text :=
  ["constructor", "__defineGetter__", "__defineSetter__", "hasOwnProperty", "__lookupGetter__",
    "__lookupSetter__", "isPrototypeOf", "propertyIsEnumerable", "toString", "valueOf",
    "__proto__", "toLocaleString"].map String.toList

inductive AllowanceLimitName where
  | fleet
  | foundryClaude
deriving DecidableEq

/-- One of the limits a reservation is checked against. -/
structure AllowanceLimit where
  committedUsd : Usd
  capUsd : ℚ
  limit : AllowanceLimitName

/-- The errors of a call, with the data their messages carry. -/
inductive AllowanceError where
  | sharedPath
  | identityMismatch
  | pilot (reason : Text)
  | noDailyCap
  | notFinitePair (normal squeezed : Usd)
  | invertedPair (normal squeezed : Usd)
  | notAnInstant (atIso : Text)
  | unpriced (deployment : Text)
  | missing
  | unreadable
  | noReadableDay
  | noFleetCap
  | unreadableReservation (requestId : Text)
  | olderDay (fileDay requestDay : Text)
  | alreadyReserved (requestId : Text)
  | exhausted (limit : AllowanceLimit) (wantUsd : Usd) (utcDay : Text) (squeezed : Bool)

/-- Throw `err` unless `ok`. -/
def require (ok : Bool) (err : AllowanceError) : Except AllowanceError Unit :=
  if ok then .ok () else .error err

/-- The price of a deployment; `none` is the value found under an inherited property. -/
def openWeightPriceFor (deployment : Text) : Except AllowanceError (Option OpenWeightPrice) :=
  match (if isFoundryClaudeDeployment deployment then foundryClaudePrices.lookup deployment
    else openWeightPrices.lookup deployment) with
  | some price => .ok (some price)
  | none =>
      if inheritedProperties.contains deployment then .ok none else .error (.unpriced deployment)

def maxCompletionTokens : ℚ := 8000

/-- An upper bound on the cost of a request before it is sent. -/
def openWeightReservationUsd (deployment : Text) (requestBodyBytes : ℕ) (extraInputTokens : ℤ) :
    Except AllowanceError Usd := do
  match ← openWeightPriceFor deployment with
  | none => pure ⊤
  | some price =>
      let inputTokenCeiling : ℤ := requestBodyBytes + max 0 extraInputTokens
      match price.longContext.filter fun l => decide (l.thresholdInputTokens < inputTokenCeiling) with
      | some rate =>
          let input := (rate.reservationInputUsdPerMillion.or
            price.reservationInputUsdPerMillion).getD rate.inputUsdPerMillion
          pure ((inputTokenCeiling * input + maxCompletionTokens * rate.outputUsdPerMillion) /
            1000000 : ℚ)
      | none =>
          let input := price.reservationInputUsdPerMillion.getD price.inputUsdPerMillion
          pure ((inputTokenCeiling * input + maxCompletionTokens * price.outputUsdPerMillion) /
            1000000 : ℚ)

/-! ### Configuration -/

inductive DailyCap where
  | plain (cap : Usd)
  | pair (normal squeezed : Usd)

structure Config where
  dailyCapUsd : Option DailyCap
  fleetCashAllowancePath : Option Text

def sharedCashAllowancePath (config : Config) : Except AllowanceError (Option Text) :=
  match config.fleetCashAllowancePath with
  | none => .ok none
  | some path =>
      if path.head? = some '/' ∧ ".json".toList <:+ path then .ok (some path)
      else .error .sharedPath

/-- The cap of the posture of a request. -/
def effectiveCashCapUsd (cap : Option DailyCap) (squeezed : Bool) :
    Except AllowanceError (Option Usd) :=
  match cap with
  | none => .ok none
  | some (.plain cap) => .ok (some cap)
  | some (.pair normal squeezedCap) => do
      require (normal.isFinite && squeezedCap.isFinite) (.notFinitePair normal squeezedCap)
      require (normal ≤ squeezedCap) (.invertedPair normal squeezedCap)
      pure (some (if squeezed then squeezedCap else normal))

def configuredCashCap (config : Config) (squeezed : Bool) : Except AllowanceError ℚ := do
  match ← effectiveCashCapUsd config.dailyCapUsd squeezed with
  | some (cap : ℚ) => if 0 < cap then pure cap else throw .noDailyCap
  | _ => throw .noDailyCap

/-- The configured cap: of a pair the one of a squeezed day. -/
def Config.cap (config : Config) : Usd :=
  match config.dailyCapUsd with
  | none => 0
  | some (.plain cap) => cap
  | some (.pair _ squeezed) => squeezed

/-! ### The file -/

/-- The pattern `^\d{4}-\d{2}-\d{2}$`. -/
def isUtcDay (day : Text) : Bool :=
  match day with
  | [a, b, c, d, '-', e, f, '-', g, h] => [a, b, c, d, e, f, g, h].all Char.isDigit
  | _ => false

def openWeightUtcDay (atIso : Text) : Except AllowanceError Text :=
  let day := atIso.take 10
  if isUtcDay day then .ok day else .error (.notAnInstant atIso)

/-- `OpenWeightAllowanceState`; `fleetCapUsd` is `none` when it is absent or not finite. -/
structure Allowance where
  utcDay : Text
  fleetCapUsd : Option ℚ
  reservations : Record Text CashReservation

def Allowance.setRow (state : Allowance) (requestId : Text) (row : CashReservation) : Allowance :=
  { state with reservations := state.reservations.set requestId row }

/-- The content of the file: text that does not parse, or a state. -/
inductive Snapshot where
  | unreadable
  | json (parsed : Allowance)

/-- The check of a row under its id. -/
def validReservation (id : Text) (row : CashReservation) : Bool :=
  !id.isEmpty && row.reservedUsd.isFinite && decide (0 ≤ row.reservedUsd) &&
    row.settledUsd.all (fun s => s.isFinite && decide (0 ≤ s) && decide (s ≤ row.reservedUsd)) &&
    row.identity.all (fun i =>
      validCashIdentity i && i.requestId == id && some i.deployment == row.deployment) &&
    (row.accountingState.isNone || row.identity.isSome)

/-- The state a call works on.  Without `preserveDay` a file of another day counts as empty. -/
def parseOpenWeightAllowance (snapshot : Option Snapshot) (utcDay : Text)
    (requireFleetCap preserveDay : Bool) : Except AllowanceError Allowance :=
  match snapshot with
  | none => if requireFleetCap then .error .missing else .ok ⟨utcDay, none, ∅⟩
  | some .unreadable => .error .unreadable
  | some (.json parsed) => do
      require (isUtcDay parsed.utcDay) .noReadableDay
      require (!requireFleetCap || parsed.fleetCapUsd.any fun cap => decide (0 < cap)) .noFleetCap
      parsed.reservations.entries.forM fun e =>
        require (validReservation e.1 e.2) (.unreadableReservation e.1)
      require (!(requireFleetCap && decide (utcDay < parsed.utcDay) && !preserveDay))
        (.olderDay parsed.utcDay utcDay)
      pure
        { utcDay := if preserveDay then parsed.utcDay else utcDay
          fleetCapUsd := parsed.fleetCapUsd
          reservations :=
            if preserveDay || parsed.utcDay == utcDay then parsed.reservations else ∅ }

/-- `openWeightCommittedUsd`. -/
def openWeightCommittedUsd (reservations : List (Text × CashReservation)) : Usd :=
  (reservations.map fun e => e.2.committedUsd).sum

def foundryClaudeDailyCapUsd (squeezed : Bool) : ℚ := if squeezed then 10 else 5

def cashAllowanceLimits (state : Allowance) (cap : ℚ) (deployment : Text) (squeezed : Bool) :
    List AllowanceLimit :=
  let fleet : AllowanceLimit :=
    ⟨openWeightCommittedUsd state.reservations.entries, (state.fleetCapUsd.map (min cap)).getD cap,
      .fleet⟩
  if isFoundryClaudeDeployment deployment then
    let rows := state.reservations.entries.filter fun e => e.2.deployment.any isFoundryClaudeDeployment
    [fleet, ⟨openWeightCommittedUsd rows, foundryClaudeDailyCapUsd squeezed, .foundryClaude⟩]
  else [fleet]

/-- `limit.committedUsd + wantUsd > limit.capUsd`, false when the sum is not a number. -/
def AllowanceLimit.exceeded (limit : AllowanceLimit) (wantUsd : Usd) : Bool :=
  match limit.committedUsd + wantUsd with
  | ⊤ => false
  | (total : ℚ) => decide (limit.capUsd < total)

/-! ### The two operations -/

structure ReserveInput where
  requestId : Text
  identity : Option CashRequestIdentity := none
  deployment : Text
  requestBodyBytes : ℕ
  atIso : Text
  squeezed : Bool := false
  extraInputTokens : ℤ := 0

structure SettleInput extends CashAccountingEvidence where
  requestId : Text
  atIso : Text

/-- The refusals of a pilot scope the call runs in: before the allowance is touched, and, for a
reservation, after its limits passed.  The scope keeps its own accounts elsewhere. -/
structure PilotScope where
  assertion : Option Text := none
  reservation : Option Text := none

def pilotCheck : Option Text → Except AllowanceError Unit
  | none => .ok ()
  | some reason => .error (.pilot reason)

/-- The row of a new reservation. -/
def heldReservation (input : ReserveInput) (wantUsd : Usd) : CashReservation :=
  match input.identity with
  | none => { reservedUsd := wantUsd, deployment := some input.deployment }
  | some identity =>
      { reservedUsd := wantUsd, deployment := some input.deployment, identity := some identity
        accountingState := some .heldUnknown, heldUsd := some wantUsd }

/-- The state the file is left in and the reserved amount. -/
def reserveOpenWeightBudget (config : Config) (file : Option Snapshot) (input : ReserveInput)
    (pilot : PilotScope) : Except AllowanceError (Allowance × Usd) := do
  require (input.identity.all fun i =>
    validCashIdentity i && i.requestId == input.requestId && i.deployment == input.deployment)
    .identityMismatch
  let sharedPath ← sharedCashAllowancePath config
  pilotCheck pilot.assertion
  let configuredCapUsd ← configuredCashCap config input.squeezed
  let utcDay ← openWeightUtcDay input.atIso
  let wantUsd ← openWeightReservationUsd input.deployment input.requestBodyBytes input.extraInputTokens
  let state ← parseOpenWeightAllowance file utcDay sharedPath.isSome false
  require (state.reservations.get? input.requestId).isNone (.alreadyReserved input.requestId)
  (cashAllowanceLimits state configuredCapUsd input.deployment input.squeezed).forM fun limit =>
    require (!limit.exceeded wantUsd) (.exhausted limit wantUsd utcDay input.squeezed)
  pilotCheck pilot.reservation
  pure (state.setRow input.requestId (heldReservation input wantUsd), wantUsd)

/-- The row a settlement records, if the receipt belongs to one. -/
def settledRow (state : Allowance) (utcDay : Text) (input : SettleInput) : Option CashReservation := do
  let row ← state.reservations.get? input.requestId
  let identity ← row.identity
  if state.utcDay = utcDay ∧ cashIdentityMatches identity input.identity then
    some (recordCashAccounting row input.toCashAccountingEvidence)
  else none

/-- The state the file is left in and the recorded row. -/
def settleOpenWeightBudget (config : Config) (file : Option Snapshot) (input : SettleInput)
    (pilot : PilotScope) : Except AllowanceError (Allowance × Option CashReservation) := do
  let sharedPath ← sharedCashAllowancePath config
  pilotCheck pilot.assertion
  let utcDay ← openWeightUtcDay input.atIso
  let state ← parseOpenWeightAllowance file utcDay sharedPath.isSome true
  match settledRow state utcDay input with
  | none => pure (state, none)
  | some recorded => pure (state.setRow input.requestId recorded, some recorded)

/-! ### Sequences of calls -/

inductive Call where
  | reserve (input : ReserveInput) (pilot : PilotScope)
  | settle (input : SettleInput) (pilot : PilotScope)

/-- The file, and every reservation granted so far under its day and request id, newest first. -/
structure AllowanceState where
  file : Option Snapshot
  book : List ((Text × Text) × CashReservation)

namespace AllowanceState

/-- The state at a file: the reservations it records are the granted ones. -/
def start (file : Option Snapshot) : AllowanceState where
  file := file
  book := match file with
    | some (.json parsed) => parsed.reservations.entries.map fun e => ((parsed.utcDay, e.1), e.2)
    | _ => []

/-- One call; a call that throws writes nothing. -/
def next (config : Config) (s : AllowanceState) : Call → AllowanceState
  | .reserve input pilot =>
      match reserveOpenWeightBudget config s.file input pilot with
      | .error _ => s
      | .ok (state, wantUsd) =>
          { file := some (.json state)
            book := ((state.utcDay, input.requestId), heldReservation input wantUsd) :: s.book }
  | .settle input pilot =>
      match settleOpenWeightBudget config s.file input pilot with
      | .error _ => s
      | .ok (state, none) => { s with file := some (.json state) }
      | .ok (state, some recorded) =>
          { file := some (.json state)
            book := assign (state.utcDay, input.requestId) recorded s.book }

def Step (config : Config) (s : AllowanceState) (call : Call) (t : AllowanceState) : Prop :=
  t = s.next config call

/-- What was granted for a day and not released. -/
def granted (s : AllowanceState) (day : Text) : Usd :=
  (s.book.map fun g => if g.1.1 = day then g.2.committedUsd else 0).sum

end AllowanceState

end Remudero.Cash
