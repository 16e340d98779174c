import Remudero.Lib.Json
import Remudero.Lib.Record

/-! # Capability grants and the launches made with them

`verifyCapabilityGrant` and `useCapabilityGrant` of `lib/capability-grant.ts`, and the way the two
cash adapters of `lib/worker-provider.ts` use them: `spawnOpenWeightWorker` and
`spawnFoundryClaudeWorker` verify the grant at the start and before every paid turn, and never
record a use.

What is recorded keeps the limit: `uses_bounded` is about any run of `useCapabilityGrant` calls.
The launches record nothing, so that each of them meets the store as the first one did;
`limitKept_iff` says when a sequence of them keeps the limit all the same. -/

namespace Remudero.Cash

open Remudero.Lib

/-! ### Grants -/

/-- What is read of a grant. -/
structure CapabilityGrant where
  id : Text
  targetIdentity : Text
  operations : List Text
  audience : Text
  expiresAt : Text
  useLimit : ℕ
deriving DecidableEq

structure CapabilityUseRequest where
  grantId : Text
  operation : Text
  target : Text
  audience : Text
  nonce : Text
deriving DecidableEq

inductive CapabilityRefusalCode
  | unknownGrant
  | expired
  | revoked
  | wrongAudience
  | wrongTarget
  | operationNotGranted
  | useLimitExceeded
  | replayedNonce
deriving DecidableEq

inductive CapabilityVerification
  | ok (grant : CapabilityGrant) (remainingUses : ℕ)
  | refused (code : CapabilityRefusalCode) (reason : Text)
deriving DecidableEq

/-- `InMemoryCapabilityGrantStore`, without the secrets that it hands out. -/
structure GrantStore where
  grants : List (Text × CapabilityGrant) := []
  revoked : List Text := []
  uses : List (Text × ℕ) := []
  nonces : List (Text × List Text) := []
deriving DecidableEq

namespace GrantStore

def issue (s : GrantStore) (g : CapabilityGrant) : GrantStore :=
  { s with grants := assign g.id g s.grants }

def revoke (s : GrantStore) (id : Text) : GrantStore := { s with revoked := id :: s.revoked }

def get (s : GrantStore) (id : Text) : Option CapabilityGrant := entryOf id s.grants

def isRevoked (s : GrantStore) (id : Text) : Bool := s.revoked.contains id

def useCount (s : GrantStore) (id : Text) : ℕ := (entryOf id s.uses).getD 0

def seen (s : GrantStore) (id : Text) : List Text := (entryOf id s.nonces).getD []

def hasSeenNonce (s : GrantStore) (id nonce : Text) : Bool := (s.seen id).contains nonce

def record (s : GrantStore) (id nonce : Text) : GrantStore :=
  { s with
    uses := assign id (s.useCount id + 1) s.uses
    nonces := assign id (nonce :: s.seen id) s.nonces }

end GrantStore

variable (dateParse : Text → Option ℤ)

/-- The checks of `verifyCapabilityGrant` on the grant on file, in order: the first that fails.
`dateParse` is `Date.parse`, and `NaN` is `none`. -/
def grantRefusal (s : GrantStore) (request : CapabilityUseRequest) (now : Option ℚ)
    (g : CapabilityGrant) : Option (CapabilityRefusalCode × Text) :=
  if s.isRevoked g.id then
    some (.revoked, "capability grant ".toList ++ g.id ++ " has been revoked".toList)
  else if now.all fun t => (dateParse g.expiresAt).any fun u => decide ((u : ℚ) ≤ t) then
    some (.expired, "capability grant ".toList ++ g.id ++ " expired at ".toList ++ g.expiresAt)
  else if request.audience ≠ g.audience then
    some (.wrongAudience, "capability grant ".toList ++ g.id ++ " is scoped to audience ".toList ++
      Json.quote g.audience ++ ", not ".toList ++ Json.quote request.audience)
  else if request.target ≠ g.targetIdentity then
    some (.wrongTarget, "capability grant ".toList ++ g.id ++ " is scoped to target ".toList ++
      Json.quote g.targetIdentity ++ ", not ".toList ++ Json.quote request.target)
  else if !g.operations.contains request.operation then
    some (.operationNotGranted, "operation ".toList ++ Json.quote request.operation ++
      " is not in grant ".toList ++ g.id ++ "'s allowlist (".toList ++
      Text.join ", ".toList g.operations ++ ")".toList)
  else if s.hasSeenNonce g.id request.nonce then
    some (.replayedNonce, "nonce ".toList ++ Json.quote request.nonce ++
      " has already been used against grant ".toList ++ g.id)
  else if g.useLimit ≤ s.useCount g.id then
    some (.useLimitExceeded, "capability grant ".toList ++ g.id ++ " has exhausted its ".toList ++
      (toString g.useLimit).toList ++ "-use limit".toList)
  else none

def verifyCapabilityGrant (s : GrantStore) (request : CapabilityUseRequest) (now : Option ℚ) :
    CapabilityVerification :=
  match s.get request.grantId with
  | none => .refused .unknownGrant
      ("no capability grant is on file for reference ".toList ++ Json.quote request.grantId)
  | some g =>
      match grantRefusal dateParse s request now g with
      | some (code, reason) => .refused code reason
      | none => .ok g (g.useLimit - s.useCount g.id - 1)

/-- Verified, and only then recorded. -/
def useCapabilityGrant (s : GrantStore) (request : CapabilityUseRequest) (now : Option ℚ) :
    GrantStore × CapabilityVerification :=
  match verifyCapabilityGrant dateParse s request now with
  | .ok g remaining => (s.record request.grantId request.nonce, .ok g remaining)
  | .refused code reason => (s, .refused code reason)

/-! ### Recorded uses keep the limit -/

variable {dateParse}

theorem verify_ok {s : GrantStore} {request : CapabilityUseRequest} {now : Option ℚ}
    {g : CapabilityGrant} {remaining : ℕ}
    (h : verifyCapabilityGrant dateParse s request now = .ok g remaining) :
    s.get request.grantId = some g ∧ s.hasSeenNonce g.id request.nonce = false ∧
      s.useCount g.id < g.useLimit := by
  unfold verifyCapabilityGrant at h
  cases hget : s.get request.grantId with
  | none => simp [hget] at h
  | some g' =>
      cases href : grantRefusal dateParse s request now g' with
      | some r => simp [hget, href] at h
      | none =>
          simp only [hget, href, CapabilityVerification.ok.injEq] at h
          obtain ⟨rfl, -⟩ := h
          unfold grantRefusal at href
          split_ifs at href with h1 h2 h3 h4 h5 h6 h7
          exact ⟨rfl, by simpa using h6, by omega⟩

variable (dateParse) in
theorem useCapabilityGrant_cases (s : GrantStore) (request : CapabilityUseRequest)
    (now : Option ℚ) :
    (∃ code reason, useCapabilityGrant dateParse s request now = (s, .refused code reason)) ∨
    ∃ g remaining, verifyCapabilityGrant dateParse s request now = .ok g remaining ∧
      useCapabilityGrant dateParse s request now =
        (s.record request.grantId request.nonce, .ok g remaining) := by
  unfold useCapabilityGrant
  cases h : verifyCapabilityGrant dateParse s request now with
  | ok g remaining => exact .inr ⟨g, remaining, rfl, rfl⟩
  | refused code reason => exact .inl ⟨code, reason, rfl⟩

/-- A use of a grant, with the log of the nonces that were consumed. -/
def consume (dateParse : Text → Option ℤ) (s : GrantStore × List Text)
    (e : CapabilityUseRequest × Option ℚ) : GrantStore × List Text :=
  match useCapabilityGrant dateParse s.1 e.1 e.2 with
  | (t, .ok _ _) => (t, e.1.nonce :: s.2)
  | (t, .refused _ _) => (t, s.2)

/-- The recorded count is the number of nonces consumed, and they are the ones remembered. -/
structure Counted (g : CapabilityGrant) (s : GrantStore × List Text) : Prop where
  filed : s.1.get g.id = some g
  count : s.1.useCount g.id = s.2.length
  seen : s.1.seen g.id = s.2
  le : s.2.length ≤ g.useLimit
  nodup : s.2.Nodup

theorem Counted.consume {g : CapabilityGrant} {s : GrantStore × List Text} (h : Counted g s)
    {e : CapabilityUseRequest × Option ℚ} (hid : e.1.grantId = g.id) :
    Counted g (consume dateParse s e) := by
  rcases useCapabilityGrant_cases dateParse s.1 e.1 e.2 with ⟨code, reason, heq⟩ | ⟨g', r, hok, heq⟩
  · simpa only [Cash.consume, heq] using h
  · obtain ⟨hget, hfresh, hlt⟩ := verify_ok hok
    rw [hid, h.filed, Option.some.injEq] at hget
    subst hget
    have hcount := h.count
    simp only [GrantStore.hasSeenNonce, h.seen] at hfresh
    simp only [Cash.consume, heq]
    refine ⟨h.filed, ?_, ?_, ?_, ?_⟩
    · simp [GrantStore.useCount, GrantStore.record, hid, entryOf_assign_self, ← hcount]
    · simp [GrantStore.seen, GrantStore.record, hid, entryOf_assign_self, ← h.seen]
    · simp only [List.length_cons]
      omega
    · exact List.nodup_cons.mpr ⟨by simpa using hfresh, h.nodup⟩

/-- Over any sequence of uses of one grant, at most as many are recorded as its limit allows, and no
nonce twice. -/
theorem uses_bounded {s : GrantStore × List Text} {g : CapabilityGrant} (h : Counted g s)
    {es : List (CapabilityUseRequest × Option ℚ)} (hall : ∀ e ∈ es, e.1.grantId = g.id) :
    Counted g (es.foldl (consume dateParse) s) := by
  induction es generalizing s with
  | nil => exact h
  | cons e es ih =>
      exact ih (h.consume (hall e List.mem_cons_self)) fun e' he' =>
        hall e' (List.mem_cons_of_mem _ he')

/-! ### Launches -/

/-- What the provider answers to a paid request: a final reply, calls of tools, a rate limit that
may be waited for, or a failure. -/
inductive Reply
  | final
  | toolCalls
  | retry (error : Text)
  | failed (error : Text)
deriving DecidableEq

/-- What one pass of the turn loop meets: the abort checks before and after the verification, the
time of the verification, the outcome of the reservation, the abort check before the request is
sent, and the reply. -/
structure Turn where
  aborted : Option Text := none
  now : ℤ
  abortedAfter : Option Text := none
  reservation : Option Text := none
  abortedUnsent : Option Text := none
  reply : Reply
deriving DecidableEq

/-- A launch with a grant.  `earlier` and `later` are the refusals of the checks that stand before
and after the first verification, `none` where these pass. -/
structure Launch where
  /-- The deployment is one of the Foundry Claude ones. -/
  foundry : Bool
  label : Text := []
  request : CapabilityUseRequest
  earlier : Option Text := none
  startNow : ℤ
  later : Option Text := none
  maxTurns : ℕ := 1
  turns : List Turn
deriving DecidableEq

/-- What a launch did: its reservations, the requests it sent, and the error it ended in. -/
structure LaunchReport where
  reserved : ℕ := 0
  sent : ℕ := 0
  error : Option Text := none
deriving DecidableEq

/-- The message of `CapabilityGrantRefusedError`. -/
def grantRefused (request : CapabilityUseRequest) (reason : Text) : Text :=
  "capability grant ".toList ++ request.grantId ++ " refused: ".toList ++ reason

def exceededMaxTurns (source : Text) (maxTurns : ℕ) : Text :=
  source ++ " tool loop exceeded maxTurns=".toList ++ (toString maxTurns).toList

/-- The source that the errors of a launch name. -/
def Launch.source (l : Launch) : Text :=
  if l.foundry then "cash ".toList ++ l.label else "openweight".toList

variable (dateParse)

/-- What stops a turn before its reservation is made, after `count` turns. -/
def turnStop (s : GrantStore) (l : Launch) (count : ℕ) (turn : Turn) : Option Text :=
  match turn.aborted with
  | some error => some error
  | none =>
      if l.maxTurns ≤ count then some (exceededMaxTurns l.source l.maxTurns)
      else
        match verifyCapabilityGrant dateParse s l.request (some (turn.now : ℚ)) with
        | .refused _ reason => some (grantRefused l.request reason)
        | .ok _ _ =>
            match turn.abortedAfter with
            | some error => some error
            | none => turn.reservation

/-- What stops the launch after a reply to its turn `count`, and whether it goes on. -/
def afterReply (l : Launch) (count : ℕ) : Reply → Option Text × Bool
  | .final => (none, false)
  | .failed error => (some error, false)
  | .toolCalls =>
      if l.maxTurns ≤ count then (some (exceededMaxTurns l.source l.maxTurns), false)
      else (none, true)
  | .retry error => if l.maxTurns ≤ count then (some error, false) else (none, true)

/-- One pass of the turn loop: the report, and whether there is another pass. -/
def takeTurn (s : GrantStore) (l : Launch) (count : ℕ) (report : LaunchReport) (turn : Turn) :
    LaunchReport × Bool :=
  match turnStop dateParse s l count turn with
  | some error => ({ report with error := some error }, false)
  | none =>
      match turn.abortedUnsent with
      | some error =>
          ({ report with reserved := report.reserved + 1, error := some error }, false)
      | none =>
          ({ reserved := report.reserved + 1
             sent := report.sent + 1
             error := (afterReply l (count + 1) turn.reply).1 },
            (afterReply l (count + 1) turn.reply).2)

/-- The turn loop of both adapters: `count` turns were made. -/
def turnLoop (s : GrantStore) (l : Launch) (count : ℕ) (report : LaunchReport) :
    List Turn → LaunchReport
  | [] => report
  | turn :: rest =>
      let (report, goesOn) := takeTurn dateParse s l count report turn
      if goesOn then turnLoop s l (count + 1) report rest else report

/-- From the first verification on. -/
def launchWith (s : GrantStore) (l : Launch) : LaunchReport :=
  match verifyCapabilityGrant dateParse s l.request (some (l.startNow : ℚ)) with
  | .refused _ reason => { error := some (grantRefused l.request reason) }
  | .ok _ _ =>
      match l.later with
      | some error => { error := some error }
      | none => turnLoop dateParse s l 0 {} l.turns

/-- `earlier` is the squeeze that a Foundry launch needs. -/
def spawnFoundryClaudeWorker (s : GrantStore) (l : Launch) : GrantStore × LaunchReport :=
  match l.earlier with
  | some error => (s, { error := some error })
  | none => (s, launchWith dateParse s l)

/-- A Foundry deployment is handed over; otherwise the grant is verified first. -/
def spawnOpenWeightWorker (s : GrantStore) (l : Launch) : GrantStore × LaunchReport :=
  if l.foundry then spawnFoundryClaudeWorker dateParse s l else (s, launchWith dateParse s l)

/-- Launches one after another on a store, each with its report. -/
def runLaunches (s : GrantStore) : List Launch → GrantStore × List (Launch × LaunchReport)
  | [] => (s, [])
  | l :: ls =>
      let (t, report) := spawnOpenWeightWorker dateParse s l
      let (u, reports) := runLaunches t ls
      (u, (l, report) :: reports)

/-- Budget was reserved, and a request was sent. -/
def LaunchReport.paid (r : LaunchReport) : Bool := decide (0 < r.reserved) && decide (0 < r.sent)

/-- At most as many launches paid as the grant's limit allows, and no two with one nonce. -/
def LimitKept (g : CapabilityGrant) (reports : List (Launch × LaunchReport)) : Prop :=
  let paid := (reports.filter fun r => r.2.paid).map Prod.fst
  paid.length ≤ g.useLimit ∧ (paid.map fun l => l.request.nonce).Nodup

/-! ### Which launches pay -/

def verified (s : GrantStore) (request : CapabilityUseRequest) (now : ℤ) : Bool :=
  match verifyCapabilityGrant dateParse s request (some (now : ℚ)) with
  | .ok _ _ => true
  | .refused _ _ => false

/-- The first turn gets as far as sending its request. -/
def Turn.goesOut (s : GrantStore) (l : Launch) (t : Turn) : Bool :=
  t.aborted.isNone && decide (0 < l.maxTurns) && verified dateParse s l.request t.now &&
    t.abortedAfter.isNone && t.reservation.isNone && t.abortedUnsent.isNone

/-- The grant verifies on the store, at the start and at the first turn, and nothing else stops the
launch. -/
def Launch.payable (s : GrantStore) (l : Launch) : Bool :=
  (!l.foundry || l.earlier.isNone) && verified dateParse s l.request l.startNow &&
    l.later.isNone && l.turns.head?.any (Turn.goesOut dateParse s l)

variable {dateParse}

theorem spawn_store (s : GrantStore) (l : Launch) : (spawnOpenWeightWorker dateParse s l).1 = s := by
  unfold spawnOpenWeightWorker spawnFoundryClaudeWorker
  split
  · split <;> rfl
  · rfl

theorem turnLoop_cons (s : GrantStore) (l : Launch) (count : ℕ) (report : LaunchReport)
    (turn : Turn) (rest : List Turn) :
    turnLoop dateParse s l count report (turn :: rest) =
      if (takeTurn dateParse s l count report turn).2 then
        turnLoop dateParse s l (count + 1) (takeTurn dateParse s l count report turn).1 rest
      else (takeTurn dateParse s l count report turn).1 :=
  rfl

theorem turnStop_isNone (s : GrantStore) (l : Launch) (turn : Turn) :
    ((turnStop dateParse s l 0 turn).isNone && turn.abortedUnsent.isNone) =
      turn.goesOut dateParse s l := by
  cases h1 : turn.aborted with
  | some error => simp [turnStop, Turn.goesOut, h1]
  | none =>
      by_cases h2 : l.maxTurns = 0
      · simp [turnStop, Turn.goesOut, h1, h2]
      · have h2' : 0 < l.maxTurns := Nat.pos_of_ne_zero h2
        cases h3 : verifyCapabilityGrant dateParse s l.request (some (turn.now : ℚ)) with
        | refused code reason => simp [turnStop, Turn.goesOut, verified, h1, h2, h3]
        | ok g remaining =>
            cases h4 : turn.abortedAfter with
            | some error => simp [turnStop, Turn.goesOut, h1, h2, h3, h4]
            | none => simp [turnStop, Turn.goesOut, verified, h1, h2, h2', h3, h4]

variable (dateParse) in
/-- A pass that reserves and sends counts both; one that does not ends the loop. -/
theorem takeTurn_cases (s : GrantStore) (l : Launch) (count : ℕ) (report : LaunchReport)
    (turn : Turn) :
    ((turnStop dateParse s l count turn).isNone && turn.abortedUnsent.isNone) = true ∧
        (takeTurn dateParse s l count report turn).1.reserved = report.reserved + 1 ∧
        (takeTurn dateParse s l count report turn).1.sent = report.sent + 1 ∨
      ((turnStop dateParse s l count turn).isNone && turn.abortedUnsent.isNone) = false ∧
        report.reserved ≤ (takeTurn dateParse s l count report turn).1.reserved ∧
        (takeTurn dateParse s l count report turn).1.sent = report.sent ∧
        (takeTurn dateParse s l count report turn).2 = false := by
  unfold takeTurn
  cases hstop : turnStop dateParse s l count turn with
  | some error => simp
  | none =>
      cases hunsent : turn.abortedUnsent with
      | some error => simp
      | none => simp

variable (dateParse) in
/-- The counts of a report only grow along the turns. -/
theorem turnLoop_mono (s : GrantStore) (l : Launch) (turns : List Turn) (count : ℕ)
    (report : LaunchReport) :
    report.reserved ≤ (turnLoop dateParse s l count report turns).reserved ∧
      report.sent ≤ (turnLoop dateParse s l count report turns).sent := by
  induction turns generalizing count report with
  | nil => simp [turnLoop]
  | cons turn rest ih =>
      have hnext := ih (count + 1) (takeTurn dateParse s l count report turn).1
      rw [turnLoop_cons]
      rcases takeTurn_cases dateParse s l count report turn with
        ⟨-, hr, hs⟩ | ⟨-, hr, hs, -⟩
      · split
        · omega
        · omega
      · split
        · omega
        · omega

/-- A fresh launch pays exactly when its first turn goes out. -/
theorem turnLoop_paid (s : GrantStore) (l : Launch) (turns : List Turn) :
    (turnLoop dateParse s l 0 {} turns).paid = turns.head?.any (Turn.goesOut dateParse s l) := by
  cases turns with
  | nil => rfl
  | cons turn rest =>
      have hmono := turnLoop_mono dateParse s l rest 1
        (takeTurn dateParse s l 0 {} turn).1
      rw [turnLoop_cons, List.head?_cons, Option.any_some, ← turnStop_isNone]
      rcases takeTurn_cases dateParse s l 0 {} turn with
        ⟨hout, hr, hs⟩ | ⟨hout, -, hs, hend⟩
      · rw [hout]
        simp only [LaunchReport.paid, Bool.and_eq_true, decide_eq_true_eq]
        split
        · simp only [Nat.zero_add]
          omega
        · omega
      · rw [hout, hend]
        simp [LaunchReport.paid, hs]

theorem spawn_paid (s : GrantStore) (l : Launch) :
    (spawnOpenWeightWorker dateParse s l).2.paid = l.payable dateParse s := by
  have hwith : (launchWith dateParse s l).paid =
      (verified dateParse s l.request l.startNow && l.later.isNone &&
        l.turns.head?.any (Turn.goesOut dateParse s l)) := by
    cases hv : verifyCapabilityGrant dateParse s l.request (some (l.startNow : ℚ)) with
    | refused code reason => simp [launchWith, verified, hv, LaunchReport.paid]
    | ok g remaining =>
        cases hl : l.later with
        | some error => simp [launchWith, verified, hv, hl, LaunchReport.paid]
        | none => simp [launchWith, verified, hv, hl, turnLoop_paid]
  cases hf : l.foundry with
  | false => simp [spawnOpenWeightWorker, Launch.payable, hf, hwith]
  | true =>
      cases he : l.earlier with
      | some error =>
          simp [spawnOpenWeightWorker, spawnFoundryClaudeWorker, Launch.payable, hf, he,
            LaunchReport.paid]
      | none =>
          simp [spawnOpenWeightWorker, spawnFoundryClaudeWorker, Launch.payable, hf, he, hwith]

/-- Every launch meets the store as the first one did. -/
theorem runLaunches_eq (s : GrantStore) (launches : List Launch) :
    runLaunches dateParse s launches =
      (s, launches.map fun l => (l, (spawnOpenWeightWorker dateParse s l).2)) := by
  induction launches with
  | nil => rfl
  | cons l ls ih => simp only [runLaunches, spawn_store, ih, List.map_cons]

theorem paid_launches (s : GrantStore) (launches : List Launch) :
    ((runLaunches dateParse s launches).2.filter fun r => r.2.paid).map Prod.fst =
      launches.filter (Launch.payable dateParse s) := by
  rw [runLaunches_eq]
  induction launches with
  | nil => rfl
  | cons l ls ih =>
      simp only [List.map_cons, List.filter_cons, spawn_paid] at ih ⊢
      split
      · rw [List.map_cons, ih]
      · exact ih

/-- A sequence of launches keeps the limit of a grant exactly when it does so by itself: when the
launches that the store, as it is before the first of them, would let pay are no more than the limit
and have different nonces. -/
theorem limitKept_iff (s : GrantStore) (g : CapabilityGrant) (launches : List Launch) :
    LimitKept g (runLaunches dateParse s launches).2 ↔
      (launches.filter (Launch.payable dateParse s)).length ≤ g.useLimit ∧
        ((launches.filter (Launch.payable dateParse s)).map fun l => l.request.nonce).Nodup := by
  unfold LimitKept
  rw [paid_launches]

/-! ### A one-time grant, used twice -/

/-- `Date.parse` on one date. -/
def oneDate (t : Text) : Option ℤ :=
  if t = "2030-01-01T00:00:00.000Z".toList then some 1893456000000 else none

def oneTimeGrant : CapabilityGrant :=
  { id := "cap-1".toList
    targetIdentity := "fixture:cash".toList
    operations := ["review.read".toList]
    audience := "provider:cash".toList
    expiresAt := "2030-01-01T00:00:00.000Z".toList
    useLimit := 1 }

def reviewLaunch : Launch :=
  { foundry := false
    request :=
      { grantId := "cap-1".toList
        operation := "review.read".toList
        target := "fixture:cash".toList
        audience := "provider:cash".toList
        nonce := "once".toList }
    startNow := 0
    turns := [{ now := 1, reply := .final }] }

/-- The same launch twice: both reserve and send, on a grant for one use. -/
theorem one_time_grant_pays_twice :
    let s := GrantStore.issue {} oneTimeGrant
    s.get oneTimeGrant.id = some oneTimeGrant ∧
      ¬ LimitKept oneTimeGrant (runLaunches oneDate s [reviewLaunch, reviewLaunch]).2 := by
  constructor
  · decide +kernel
  · unfold LimitKept
    decide +kernel

end Remudero.Cash
