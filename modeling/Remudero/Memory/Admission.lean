import Remudero.Lib.Text
import Mathlib.Data.List.Sort

/-! # Memory admission

`awaitMemoryAdmission` and `admissionLoop` of `lib/host-memory-admission.ts`, with the rungs that may
admit a start which does not fit, and `rankDemand` of `lib/host-memory-priority.ts`.

One turn of the loop meets a `Turn`: the clock, the process's maps and the held record as it is read
then (other requests run between two turns), what the host reports, and the verdict on it.
`evaluate` is the section under the admission lock, and gives back the maps and the record that it
writes.  What is
written to the ledger is left out.

A verdict fits when it has no reason, as `evaluateShadowMemory` says. -/

namespace Remudero.Memory

open Remudero.Lib

inductive WorkerClass
  | review
  | fix
  | implement
  | unclassified
  | advisory
  | garden
  | checkProof
  | pushGate
  | test
  | runChildProbe
deriving DecidableEq

/-! ### Verdicts -/

/-- `ShadowReason`. -/
inductive Reason
  | memoryAvailable
  | swapIn
  | psi
  | containerCeiling
  | unrealizedReservations
  | uncertainty
  | wouldYieldToReview
deriving DecidableEq

/-- Whose tail the host's one tail allowance is. -/
inductive TailOwner
  | start
  | other
deriving DecidableEq

/-- The numbers of a verdict that the rungs read, in MiB as the program has them. -/
structure Numbers where
  containerSighted : Bool
  memAvailable : Option Float
  daemonGrowthTypical : Float
  coldStartReserve : Float
  hostTypical : Float
  hostTailOwner : Option TailOwner
  margin : Float

structure Verdict where
  reasons : List Reason
  numbers : Numbers

def Verdict.wouldAdmit (v : Verdict) : Bool := v.reasons.isEmpty

/-- A reservation as the ledger shows it. -/
structure Entry where
  id : Text
  occupancyReleased : Bool
  uncertain : Bool
  /-- The share of the growth that is still ahead, where it is measured. -/
  survival : Option ℚ

/-- What the host reports. -/
structure Inputs where
  ledgerPresent : Bool
  entries : List Entry
  jointClaim : Bool
  /-- The reservation of the start, where it has one already. -/
  reservationId : Option Text

inductive AdmissionTier
  | fits
  | uncertain
  | shortfall
deriving DecidableEq

def admissionTier (v : Verdict) : AdmissionTier :=
  if v.wouldAdmit then .fits
  else if v.reasons.all (· = .uncertainty) then .uncertain
  else .shortfall

/-- Some reservation still holds work whose end can free memory. -/
def reservedWorkRunning (inputs : Inputs) : Bool :=
  inputs.entries.any fun e => !e.occupancyReleased && !e.uncertain

/-- Why a rung does not admit. -/
inductive Block
  | reason (r : Reason)
  | containerSighted
  | noCadence
  | youngerThanCadence
  | unobservedSeed
  | outranked
  | agedChildRunning
  | jointClaim
  | tailNotTheStarts
  | ownTailStartRunning
  | otherClaimUndecayed
  | typicalShort
  | youngerThanStarvation
  | hardReason
  | starvationStartRunning
deriving DecidableEq

def observedMemoryShortfall (v : Verdict) : Option Block :=
  if .memoryAvailable ∈ v.reasons then some (.reason .memoryAvailable)
  else if .containerCeiling ∈ v.reasons ∧ v.numbers.containerSighted then some .containerSighted
  else if .swapIn ∈ v.reasons then some (.reason .swapIn)
  else if .psi ∈ v.reasons then some (.reason .psi)
  else none

/-! ### The process's maps and the held record -/

/-- A waiting start; `ref` is the identity of the object. -/
structure Waiter where
  ref : ℕ
  root : Text
  workerClass : WorkerClass
  waitingSinceMs : ℤ

/-- An open deferral streak. -/
structure Streak extends Waiter where
  askedSinceMs : ℤ
  deferrals : ℕ

structure Maps where
  waiting : List Waiter
  /-- By root and run id. -/
  streaks : List ((Text × Text) × Streak)
  agedRunning : Option (Text × Text)
  ownTailRunning : Text → Option Text
  starvationRunning : Text × WorkerClass → Option Text
  starvationAlerted : Text × WorkerClass → Option ℤ

/-- The maps of a process that has just started. -/
def Maps.empty : Maps := ⟨[], [], none, fun _ => none, fun _ => none, fun _ => none⟩

structure HeldRecord where
  since : ℤ
  last : ℤ
  alerted : Bool
  starvation : Option Text

/-- The held record of one root, beside the ledger. -/
abbrev HeldStore := WorkerClass → Option HeldRecord

def MEMORY_ADMISSION_STARVATION_MS : ℤ := 60 * 60000

def MEMORY_ADMISSION_HELD_GAP_MS : ℤ := 20 * 60000

def STARVATION_SOFT_REASONS : List Reason := [.swapIn, .psi, .uncertainty, .unrealizedReservations]

/-- The waiters and streaks of a class on a root. -/
def Maps.queued (m : Maps) (root : Text) (c : WorkerClass) : List Waiter :=
  (m.waiting ++ m.streaks.map fun x => x.2.toWaiter).filter fun w =>
    w.root = root ∧ w.workerClass = c

/-- Since when a class has been held on a root. -/
def classHeldSince (m : Maps) (root : Text) (c : WorkerClass) (record : Option HeldRecord)
    (now : ℤ) : ℤ :=
  let own := (m.queued root c).foldl (fun a w => min a w.waitingSinceMs) now
  match record with
  | some r =>
      if now - r.last ≤ MEMORY_ADMISSION_HELD_GAP_MS ∧ r.since < own then r.since else own
  | none => own

/-! ### Ranking -/

structure Priority where
  classWeight : WorkerClass → ℚ
  agingPerMinute : ℚ
  /-- `localeCompare` of two names is at most zero. -/
  localeLe : Text → Text → Bool

def priorityScore (pr : Priority) (now : ℤ) (w : Waiter) : ℚ :=
  pr.classWeight w.workerClass *
    (1 + pr.agingPerMinute * ((max 0 (now - w.waitingSinceMs) : ℤ) / 60000))

/-- Highest score first, then the older wait, then the name. -/
def rankDemand (pr : Priority) (now : ℤ) (ws : List Waiter) : List Waiter :=
  ws.insertionSort fun a b =>
    priorityScore pr now b < priorityScore pr now a ∨
      priorityScore pr now a = priorityScore pr now b ∧
        (a.waitingSinceMs < b.waitingSinceMs ∨
          a.waitingSinceMs = b.waitingSinceMs ∧ pr.localeLe a.root b.root = true)

/-- The waiter is the first of the ranking. -/
def leads (pr : Priority) (now : ℤ) (ws : List Waiter) (self : Waiter) : Bool :=
  match rankDemand pr now ws with
  | [] => false
  | w :: _ => w.ref == self.ref

/-! ### Requests and turns -/

structure Request where
  workerClass : WorkerClass
  root : Text
  runId : Text
  sinceMs : Option ℤ
  /-- `onShortfall: "defer"`. -/
  defers : Bool
  cadenceMs : Option ℤ
  dueSinceMs : Option ℤ
  /-- Asked through `awaitValidationMemoryAdmission`. -/
  validation : Bool

def Request.key (req : Request) : Text × Text := (req.root, req.runId)

def Request.classKey (req : Request) : Text × WorkerClass := (req.root, req.workerClass)

structure Policy where
  priority : Priority
  hostReserveMib : Float
  /-- The mode of the class is `enforce`, in a process that the daemon owns. -/
  enforced : WorkerClass → Bool

/-- What one turn of the loop meets. -/
structure Turn where
  aborted : Bool
  now : ℤ
  maps : Maps
  /-- What `readHeld` gives: nothing where the record is absent or could not be read. -/
  held : HeldStore
  /-- The admission lock is busy. -/
  busy : Bool
  /-- `none` where reading the host throws. -/
  inputs : Option Inputs
  verdict : Verdict
  /-- The reservation that opens, visible in the ledger; `none` where a check on it throws. -/
  reservation : Option Text
  /-- The host alert could be raised. -/
  alerts : Bool
  /-- The strict evidence of a validation request is complete. -/
  complete : Bool
  /-- The strict mark of a validation request was recorded. -/
  marked : Bool

/-- What a request fixes when it starts. -/
structure Start where
  startedAt : ℤ
  since : ℤ
  askedSince : ℤ
  seededSince : Option ℤ
  waiter : Waiter

/-- The streak that a deferring request continues. -/
def openStreak (req : Request) (m : Maps) : Option Streak :=
  if req.defers ∧ ¬ req.validation then m.streaks.lookup req.key else none

def Start.of (req : Request) (ref : ℕ) (m : Maps) (startedAt : ℤ) : Start :=
  let since := match openStreak req m with
    | some k => k.waitingSinceMs
    | none => min startedAt (req.sinceMs.getD startedAt)
  let askedSince := match openStreak req m with
    | some k => k.askedSinceMs
    | none => startedAt
  let seededSince := match openStreak req m, req.dueSinceMs with
    | none, some due => some (min startedAt due)
    | _, _ => none
  ⟨startedAt, since, askedSince, seededSince, ⟨ref, req.root, req.workerClass, since⟩⟩

/-! ### The rungs -/

/-- Why the aged rung does not admit. -/
def agedRungBlock (pr : Priority) (req : Request) (st : Start) (t : Turn) : Option Block :=
  match req.cadenceMs with
  | none => some .noCadence
  | some cadence =>
      if t.now - st.waiter.waitingSinceMs < cadence then
        match st.seededSince with
        | some seeded =>
            if cadence ≤ t.now - seeded then some .unobservedSeed else some .youngerThanCadence
        | none => some .youngerThanCadence
      else
        let others := (t.maps.streaks.filter fun x => x.1 ≠ req.key).map fun x => x.2.toWaiter
        if ¬ leads pr t.now (others ++ [st.waiter]) st.waiter then some .outranked
        else if t.maps.agedRunning.isSome then some .agedChildRunning
        else observedMemoryShortfall t.verdict

/-- The first reason that the own-tail rung does not admit past. -/
def ownTailReason (sighted : Bool) : List Reason → Option Block
  | [] => none
  | .containerCeiling :: rest => if sighted then some .containerSighted else ownTailReason sighted rest
  | .unrealizedReservations :: rest => ownTailReason sighted rest
  | r :: _ => some (.reason r)

/-- The growth of the entry is still all ahead of it, or unmeasured. -/
def Entry.undecayed (e : Entry) : Bool :=
  match e.survival with
  | none => true
  | some f => 1 ≤ f

/-- The own-tail start is still before its peak, or unmeasured. -/
def Entry.beforePeak (e : Entry) : Bool :=
  match e.survival with
  | none => true
  | some f => 0 < f

/-- MemAvailable less the typical growth of the daemons, the cold-start reserve, every typical claim
and the margin. -/
def typicalHeadroom (n : Numbers) : Option Float :=
  n.memAvailable.map fun a => a - n.daemonGrowthTypical - n.coldStartReserve - n.hostTypical - n.margin

/-- Why the own-tail rung does not admit, and the maps without an own-tail start that has passed its
peak. -/
def ownTailRung (pol : Policy) (root : Text) (inputs : Inputs) (v : Verdict) (m : Maps) :
    Option Block × Maps :=
  if inputs.jointClaim then (some .jointClaim, m)
  else match ownTailReason v.numbers.containerSighted v.reasons with
  | some b => (some b, m)
  | none =>
      if .unrealizedReservations ∉ v.reasons then (some (.reason .containerCeiling), m)
      else if v.numbers.hostTailOwner ≠ some .start then (some .tailNotTheStarts, m)
      else
        let live := inputs.entries.filter fun e =>
          !e.occupancyReleased ∧ some e.id ≠ inputs.reservationId
        let previous := (m.ownTailRunning root).bind fun id => live.find? fun e => e.id = id
        if previous.any Entry.beforePeak then (some .ownTailStartRunning, m)
        else
          let m' := { m with ownTailRunning := Function.update m.ownTailRunning root none }
          if live.any Entry.undecayed then (some .otherClaimUndecayed, m')
          else match typicalHeadroom v.numbers with
          | none => (some .typicalShort, m')
          | some h => (if h < pol.hostReserveMib then some .typicalShort else none, m')

/-- Why the starvation rung does not admit, and the maps without a starvation start that has
ended. -/
def starvationBlock (classKey : Text × WorkerClass) (inputs : Inputs) (v : Verdict) (heldMs : ℤ)
    (record : Option HeldRecord) (m : Maps) : Option Block × Maps :=
  if heldMs < MEMORY_ADMISSION_STARVATION_MS then (some .youngerThanStarvation, m)
  else if v.reasons.any (· ∉ STARVATION_SOFT_REASONS) then (some .hardReason, m)
  else
    let running := (m.starvationRunning classKey).or (record.bind HeldRecord.starvation)
    let entry := running.bind fun id => inputs.entries.find? fun e => e.id = id
    if entry.any fun e => !e.occupancyReleased then (some .starvationStartRunning, m)
    else (none, { m with starvationRunning := Function.update m.starvationRunning classKey none })

/-! ### The evaluation under the lock -/

/-- The tier that a start is admitted on. -/
inductive Admit
  | fits
  | uncertain
  | nothingToWaitFor
  | aged
  | ownTail
  | starvation
deriving DecidableEq

/-- A validation request is refused where its evidence is incomplete, or where it does not fit and
nothing runs that could be waited out. -/
def validationFailure (t : Turn) (inputs : Inputs) : Bool :=
  !t.complete || (admissionTier t.verdict ≠ .fits && !reservedWorkRunning inputs)

/-- How long the class of a request has been held. -/
def heldMs (req : Request) (t : Turn) : ℤ :=
  t.now - classHeldSince t.maps req.root req.workerClass (t.held req.workerClass) t.now

/-- The last rungs of a shortfall, in the source's order. -/
def lastRungs (pol : Policy) (req : Request) (t : Turn) (inputs : Inputs) : Option Admit × Maps :=
  match ownTailRung pol req.root inputs t.verdict t.maps with
  | (none, m) => (some .ownTail, m)
  | (some _, m) =>
      match starvationBlock req.classKey inputs t.verdict (heldMs req t) (t.held req.workerClass) m with
      | (none, m') => (some .starvation, m')
      | (some _, m') => (none, m')

/-- `admitAs`, and the maps after the rungs were tried. -/
def admitAs (pol : Policy) (req : Request) (st : Start) (attempt : ℕ) (t : Turn) (inputs : Inputs) :
    Option Admit × Maps :=
  if req.validation then
    (if ¬ validationFailure t inputs ∧ admissionTier t.verdict = .fits then some .fits else none, t.maps)
  else match admissionTier t.verdict with
  | .fits => (some .fits, t.maps)
  | .uncertain => (if 0 < attempt then some .uncertain else none, t.maps)
  | .shortfall =>
      if ¬ reservedWorkRunning inputs ∧ observedMemoryShortfall t.verdict = none then
        (some .nothingToWaitFor, t.maps)
      else if req.defers ∧ agedRungBlock pol.priority req st t = none then (some .aged, t.maps)
      else lastRungs pol req t inputs

/-- A starvation start is remembered, and its streak's alert raised where it was not. -/
def starve (req : Request) (t : Turn) (id : Text) (m : Maps) : Maps :=
  let alerted := (t.held req.workerClass).any HeldRecord.alerted ||
    (m.starvationAlerted req.classKey).isSome
  let since := classHeldSince t.maps req.root req.workerClass (t.held req.workerClass) t.now
  { m with
    starvationRunning := Function.update m.starvationRunning req.classKey (some id)
    starvationAlerted :=
      if !alerted && t.alerts then Function.update m.starvationAlerted req.classKey (some since)
      else m.starvationAlerted }

/-- Every other class still queued on the root is refreshed. -/
def refreshed (req : Request) (t : Turn) (store : HeldStore) : HeldStore := fun c =>
  if c ≠ req.workerClass ∧ t.maps.queued req.root c ≠ [] then
    some { (store c).getD ⟨0, 0, false, none⟩ with
      since := classHeldSince t.maps req.root c (store c) t.now
      last := t.now }
  else store c

/-- A class that is held is stamped. -/
def stamped (req : Request) (t : Turn) (m : Maps) : HeldRecord where
  since := classHeldSince t.maps req.root req.workerClass (t.held req.workerClass) t.now
  last := t.now
  alerted := (t.held req.workerClass).any HeldRecord.alerted ||
    (m.starvationAlerted req.classKey).isSome
  starvation := m.starvationRunning req.classKey

inductive Evaluated
  | threw (maps : Maps)
  | done (admitted : Option Admit) (maps : Maps) (written : Option HeldStore)

/-- The held record that an evaluation writes, if any: stamped while the class is held, without the
class once a start is admitted on another tier than starvation. -/
def settle (req : Request) (t : Turn) (admitted : Option Admit) (m : Maps) : Evaluated :=
  let ended := admitted.any fun a => a ≠ .starvation
  if req.validation then .done admitted m none
  else if admissionTier t.verdict = .shortfall ∨ ended ∧ (t.held req.workerClass).isSome then
    if ended then
      .done admitted
        { m with starvationAlerted := Function.update m.starvationAlerted req.classKey none }
        (some (refreshed req t (Function.update t.held req.workerClass none)))
    else
      .done admitted m
        (some (refreshed req t (Function.update t.held req.workerClass (some (stamped req t m)))))
  else .done admitted m none

/-- The section under the admission lock. -/
def evaluate (pol : Policy) (req : Request) (st : Start) (attempt : ℕ) (t : Turn) (inputs : Inputs) :
    Evaluated :=
  match admitAs pol req st attempt t inputs with
  | (none, m) => settle req t none m
  | (some a, m) =>
      if a = .fits ∧ ¬ inputs.ledgerPresent then .threw m
      else match t.reservation with
      | none => .threw m
      | some id => settle req t (some a) (if a = .starvation then starve req t id m else m)

/-! ### The loop -/

inductive Outcome
  | abandoned
  | notEnforced
  | deferred
  | admitted (tier : Admit) (waitedMs : ℤ) (attempts : ℕ) (reservation : Option Text)
  /-- Fail-open: the start goes on, and the error is named. -/
  | error
  /-- The two outcomes of a validation request. -/
  | ready
  | notStarted
deriving DecidableEq

/-- What an evaluation means for the request; `none` waits for the next turn. -/
def conclude (req : Request) (st : Start) (attempt : ℕ) (t : Turn) (inputs : Inputs) :
    Evaluated → Option Outcome
  | .threw _ => some (if req.validation then .notStarted else .error)
  | .done none _ _ =>
      if req.validation then if validationFailure t inputs then some .notStarted else none
      else if admissionTier t.verdict = .shortfall ∧ req.defers then some .deferred
      else none
  | .done (some a) _ _ =>
      if req.validation then some (if t.marked then .ready else .notStarted)
      else
        let waitedMs := t.now - if a = .aged then st.askedSince else st.startedAt
        some (.admitted a waitedMs attempt t.reservation)

/-- One turn of the loop. -/
def turn (pol : Policy) (req : Request) (st : Start) (attempt : ℕ) (t : Turn) : Option Outcome :=
  if t.aborted then some (if req.validation then .notStarted else .abandoned)
  else if ¬ leads pol.priority t.now t.maps.waiting st.waiter then
    if req.defers ∧ ¬ req.validation ∧ req.workerClass = .garden then some .deferred else none
  else if t.busy then if req.validation then some .notStarted else none
  else match t.inputs with
  | none => some (if req.validation then .notStarted else .error)
  | some inputs => conclude req st attempt t inputs (evaluate pol req st attempt t inputs)

/-- The outcome, with the turn that gave it; `none` while the request still waits. -/
def admissionLoop (pol : Policy) (req : Request) (st : Start) :
    ℕ → List Turn → Option (Outcome × Turn)
  | _, [] => none
  | attempt, t :: ts =>
      match turn pol req st attempt t with
      | some o => some (o, t)
      | none => admissionLoop pol req st (attempt + 1) ts

/-- `awaitMemoryAdmission`, from the maps at its start and through the turns that follow. -/
def awaitMemoryAdmission (pol : Policy) (req : Request) (ref : ℕ) (m : Maps) (startedAt : ℤ)
    (ts : List Turn) : Option (Outcome × Option Turn) :=
  if ¬ pol.enforced req.workerClass then some (.notEnforced, none)
  else (admissionLoop pol req (Start.of req ref m startedAt) 0 ts).map fun x => (x.1, some x.2)

end Remudero.Memory
