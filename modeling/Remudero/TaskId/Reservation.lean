import Remudero.Lib.Commits
import Remudero.Lib.Text
import Remudero.Lib.Transition

/-! # Remote task-id reservations

`reserveTaskIdRemote` and `gitRemoteRefReserver` of `lib/task-id-reservation.ts`.  A task id is
reserved by a commit at its own ref.  A reserver pushes an orphan commit to the ref of the next
candidate id; when the push is refused it fetches the ref, reads the holder's line from the
message of `FETCH_HEAD`, asks whether the holder's branch is on the remote, and, when the holder
may be reclaimed, commits a child of `FETCH_HEAD` and pushes that.

Reservers run against one remote, a store of refs with plain pushes.  Each works in a clone, and
`FETCH_HEAD` belongs to the clone: reservers of one clone share it.  One event is the answer to one
git command, so a run is an arbitrary interleaving.  `wins` is for the proofs only: it records,
newest first, every reservation that was reported as held, with the commit its push displaced and
the commit whose message the reserver judged.

`decodeURIComponent` is the parameter `decode` (`none` when it throws), `Number` on a text that
denotes an integer is `number`, and `Date.parse` is `dateParse`.

`ReservationSafety.lean` says when reservations collide. -/

namespace Remudero.TaskId

open Remudero.Lib

/-! ### The holder line -/

structure ReservationHolderLine where
  branch : Text
  pid : Option ℤ
  host : Option Text
  startedAt : Option Text
  source : Option Text
  takenOverFrom : Option Text
deriving DecidableEq, Repr

inductive ParsedReservationHolderLine where
  | known (holder : ReservationHolderLine)
  | legacy
  | unreadable (reason : Text) (recorded : Option ReservationHolderLine)
deriving DecidableEq, Repr

variable (decode : Text → Option Text) (number : Text → Option ℤ) (dateParse : Text → Option ℤ)

/-- `v.replace(/\+/g, "%20")`, then `decodeURIComponent`. -/
def unholderValue (v : Text) : Option Text :=
  decode (v.flatMap fun c => if c = '+' then ['%', '2', '0'] else [c])

/-- The lines of a message; a line feed may follow a carriage return. -/
def messageLines (message : Text) : List Text :=
  let lines := Text.splitBy (· == '\n') message
  lines.mapIdx fun i l =>
    if i + 1 < lines.length ∧ l.getLast? = some '\r' then l.dropLast else l

/-- The tokens of a holder line, or why one is malformed.  A later value of a key replaces an
earlier one. -/
def holderValues : List Text → List (Text × Text) → Except Text (List (Text × Text))
  | [], values => .ok values
  | token :: tokens, values =>
      if token.isEmpty then holderValues tokens values
      else
        let key := token.takeWhile (· != '=')
        if key.isEmpty ∨ '=' ∉ token then .error ("malformed token ".toList ++ token)
        else match unholderValue decode (token.drop (key.length + 1)) with
          | none => .error ("malformed value for ".toList ++ key)
          | some v => holderValues tokens ((key, v) :: values)

def holderPrefix : Text := "rmd-id holder ".toList

def missingBranchHolder (values : List (Text × Text)) : ParsedReservationHolderLine :=
  .unreadable "missing branch".toList (some
    { branch := "unknown".toList
      pid := (values.lookup "pid".toList).bind number
      host := values.lookup "host".toList
      startedAt := values.lookup "started_at".toList
      source := none
      takenOverFrom := none })

def parseReservationHolderLine (message : Text) : ParsedReservationHolderLine :=
  match (messageLines message).find? (holderPrefix.isPrefixOf ·) with
  | none => .legacy
  | some line =>
      let tokens := Text.splitBy (fun c => c == ' ' || c == '\t') (Text.trim (line.drop holderPrefix.length))
      match holderValues decode tokens [] with
      | .error reason => .unreadable reason none
      | .ok values =>
          match values.lookup "branch".toList with
          | none => missingBranchHolder number values
          | some branch =>
              if branch.isEmpty ∨ branch = "unknown".toList then missingBranchHolder number values
              else
                let pidRaw := values.lookup "pid".toList
                if pidRaw.isSome ∧ (pidRaw.bind number).isNone then .unreadable "malformed pid".toList none
                else .known
                  { branch := branch
                    pid := pidRaw.bind number
                    host := values.lookup "host".toList
                    startedAt := values.lookup "started_at".toList
                    source := values.lookup "source".toList
                    takenOverFrom := values.lookup "taken_over_from".toList }

/-! ### May a holder be reclaimed? -/

inductive ReservationHolderDrift where
  | reclaimable | held | unattributable | unreadable
deriving DecidableEq, Repr

inductive ReservationHolderBranchPresence where
  | present | absent | unreadable
deriving DecidableEq, Repr

def reservationPushGraceMs : ℤ := 2 * 60 * 60 * 1000

def reservationIsFresh (startedAt : Option Text) (nowMs : ℤ) : Bool :=
  match startedAt.bind dateParse with
  | none => false
  | some started => decide (|nowMs - started| < reservationPushGraceMs)

def reservationHolderDrift (parsed : ParsedReservationHolderLine)
    (branchPresence : ReservationHolderBranchPresence) (nowMs : ℤ) : ReservationHolderDrift :=
  match parsed with
  | .known holder =>
      if holder.branch = "main".toList then .unattributable
      else match branchPresence with
        | .present => .held
        | .absent => if reservationIsFresh dateParse holder.startedAt nowMs then .held else .reclaimable
        | .unreadable => .unreadable
  | .unreadable reason recorded =>
      if reason = "missing branch".toList then
        if reservationIsFresh dateParse (recorded.bind (·.startedAt)) nowMs then .held else .unattributable
      else .unreadable
  | .legacy => .unreadable

/-! ### Reservers on one remote -/

def maxAllocatableTaskId : ℕ := 100000

def isAllocatableTaskId (n : ℕ) : Bool := 0 < n && n ≤ maxAllocatableTaskId

variable {Sha : Type}

/-- What a reserver judged: the commit whose message it read, whether the holder's branch was
found, and the time. -/
structure Judgement (Sha : Type) where
  commit : Sha
  presence : ReservationHolderBranchPresence
  nowMs : ℤ

/-- The command a reserver is about to issue for the id `n`, or how it ended. -/
inductive ReservePc (Sha : Type) where
  | attempting (n : ℕ)
  | fetching (n : ℕ)
  | logging (n : ℕ)
  | probing (n : ℕ) (read : Sha)
  | committing (n : ℕ) (judged : Judgement Sha)
  | pushing (n : ℕ) (judged : Judgement Sha) (child : Sha)
  | won (n : ℕ)
  /-- threw: unreachable, refused, unknown, local or out of ids -/
  | failed

/-- A call of `reserveTaskIdRemote`. -/
structure Reserver (Sha : Type) where
  clone : ℕ
  branch : Text
  anchor : Sha
  last : ℕ
  pc : ReservePc Sha

/-- A reservation reported as held. -/
structure Win (Sha : Type) where
  reserver : ℕ
  id : ℕ
  commit : Sha
  /-- what was at the ref when the push was applied -/
  displaced : Option Sha
  judged : Option (Judgement Sha)

structure ReserveState (Sha : Type) where
  remote : Refs ℕ Sha
  commits : Commits Sha
  /-- `FETCH_HEAD` of each clone -/
  fetchHead : ℕ → Option Sha
  reservers : List (Reserver Sha)
  wins : List (Win Sha)

/-- How a push ended: accepted, rejected as contention, failed otherwise, or applied with the
answer lost, which is reported as a failure other than contention. -/
inductive PushReply where
  | ok | rejected | error | replyLost
deriving DecidableEq, Repr

/-- How the fetch of a ref ended. -/
inductive FetchReply where
  | ok | confirmedAbsent | error
deriving DecidableEq, Repr

inductive ReserveEvent (Sha : Type) where
  | start (clone : ℕ) (branch : Text) (anchor : Sha) (startId : ℕ) (floor : Option ℕ) (maxScan : ℕ)
  | attempted (i : ℕ) (reply : PushReply)
  | fetched (i : ℕ) (reply : FetchReply)
  | logged (i : ℕ) (ok : Bool)
  | judged (i : ℕ) (presence : ReservationHolderBranchPresence) (nowMs : ℤ) (policyCurrent : Bool)
  | committed (i : ℕ) (child : Option Sha)
  | pushed (i : ℕ) (reply : PushReply)

namespace ReserveState

def init : ReserveState Sha where
  remote := fun _ => none
  commits := Commits.empty
  fetchHead := fun _ => none
  reservers := []
  wins := []

def setPc (s : ReserveState Sha) (i : ℕ) (r : Reserver Sha) (pc : ReservePc Sha) : ReserveState Sha :=
  { s with reservers := s.reservers.set i { r with pc := pc } }

/-- The outcome `taken`: try the next id, unless the scan is over. -/
def advance (r : Reserver Sha) (n : ℕ) : ReservePc Sha :=
  if n + 1 ≤ r.last then .attempting (n + 1) else .failed

variable [DecidableEq Sha] (message : Sha → Text)

/-- The answer to the push of `commit` for the id `n`; a rejected push goes on with `onRejected`. -/
def answerPush (s : ReserveState Sha) (i : ℕ) (r : Reserver Sha) (n : ℕ) (commit : Sha)
    (judged : Option (Judgement Sha)) (onRejected : ReservePc Sha) : PushReply → Option (ReserveState Sha)
  | .ok => (s.remote.push s.commits n commit).map fun remote =>
      { s.setPc i r (.won n) with remote := remote, wins := ⟨i, n, commit, s.remote n, judged⟩ :: s.wins }
  | .rejected => some (s.setPc i r onRejected)
  | .error => some (s.setPc i r .failed)
  | .replyLost => (s.remote.push s.commits n commit).map fun remote =>
      { s.setPc i r .failed with remote := remote }

/-- `reclaim` needs a filing branch. -/
def reclaimFrom (r : Reserver Sha) (n : ℕ) : ReservePc Sha :=
  if r.branch = "unknown".toList ∨ r.branch = "main".toList then .failed else .fetching n

/-- The answer to the fetch of the ref of `n`. -/
def answerFetch (s : ReserveState Sha) (i : ℕ) (r : Reserver Sha) (n : ℕ) : FetchReply → Option (ReserveState Sha)
  | .ok => (s.remote n).map fun v =>
      { s.setPc i r (.logging n) with fetchHead := Function.update s.fetchHead r.clone (some v) }
  | .confirmedAbsent => some (s.setPc i r (advance r n))
  | .error => some (s.setPc i r .failed)

/-- The presence of the holder's branch is read only for a line that names one. -/
def branchRead (parsed : ParsedReservationHolderLine) (presence : ReservationHolderBranchPresence) :
    ReservationHolderBranchPresence :=
  match parsed with
  | .known _ => presence
  | _ => .unreadable

/-- The judgement of the holder `read`. -/
def judge (r : Reserver Sha) (n : ℕ) (read : Sha) (presence : ReservationHolderBranchPresence) (nowMs : ℤ)
    (policyCurrent : Bool) : ReservePc Sha :=
  let parsed := parseReservationHolderLine decode number (message read)
  let presence := branchRead parsed presence
  match reservationHolderDrift dateParse parsed presence nowMs with
  | .held => advance r n
  | .unreadable => .failed
  | _ => if policyCurrent then .committing n ⟨read, presence, nowMs⟩ else advance r n

/-- The answer to `commit-tree -p FETCH_HEAD`. -/
def answerCommit (s : ReserveState Sha) (i : ℕ) (r : Reserver Sha) (n : ℕ) (judged : Judgement Sha) :
    Option Sha → Option (ReserveState Sha)
  | none => some (s.setPc i r .failed)
  | some child => (s.fetchHead r.clone).bind fun head =>
      (s.commits.commit child (some head)).map fun commits =>
        { s.setPc i r (.pushing n judged child) with commits := commits }

/-- The first id tried: the floor of the reservations on the remote, when it is known, only moves
the start up. -/
def scanFrom (startId : ℕ) (floor : Option ℕ) : ℕ :=
  match floor with
  | some f => max startId f
  | none => startId

/-- One event; `none` when it is not possible in the state. -/
def next (s : ReserveState Sha) : ReserveEvent Sha → Option (ReserveState Sha)
  | .start clone branch anchor startId floor maxScan =>
      let from_ := scanFrom startId floor
      if isAllocatableTaskId startId && decide (1 ≤ maxScan) && isAllocatableTaskId from_ &&
          decide (branch ≠ "main".toList) then
        (s.commits.commit anchor none).map fun commits =>
          { s with
            commits := commits
            reservers := s.reservers ++
              [⟨clone, branch, anchor, min maxAllocatableTaskId (from_ + maxScan - 1), .attempting from_⟩] }
      else none
  | .attempted i reply =>
      match s.reservers[i]? with
      | some r => match r.pc with
        | .attempting n => s.answerPush i r n r.anchor none (reclaimFrom r n) reply
        | _ => none
      | none => none
  | .fetched i reply =>
      match s.reservers[i]? with
      | some r => match r.pc with
        | .fetching n => s.answerFetch i r n reply
        | _ => none
      | none => none
  | .logged i ok =>
      match s.reservers[i]? with
      | some r => match r.pc with
        | .logging n => (s.fetchHead r.clone).map fun read =>
            if ok ∧ ¬ (Text.trim (message read)).isEmpty then s.setPc i r (.probing n read)
            else s.setPc i r .failed
        | _ => none
      | none => none
  | .judged i presence nowMs policyCurrent =>
      match s.reservers[i]? with
      | some r => match r.pc with
        | .probing n read =>
            some (s.setPc i r (judge decode number dateParse message r n read presence nowMs policyCurrent))
        | _ => none
      | none => none
  | .committed i child =>
      match s.reservers[i]? with
      | some r => match r.pc with
        | .committing n judged => s.answerCommit i r n judged child
        | _ => none
      | none => none
  | .pushed i reply =>
      match s.reservers[i]? with
      | some r => match r.pc with
        | .pushing n judged child => s.answerPush i r n child (some judged) (advance r n) reply
        | _ => none
      | none => none

/-- The steps of the reservers. -/
def Step (s : ReserveState Sha) (e : ReserveEvent Sha) (t : ReserveState Sha) : Prop :=
  s.next decode number dateParse message e = some t

/-- When a reserver commits, `FETCH_HEAD` of its clone still names the commit it judged. -/
def HeadUnmoved (s : ReserveState Sha) : ReserveEvent Sha → Prop
  | .committed i (some _) => ∀ r n judged, s.reservers[i]? = some r → r.pc = .committing n judged →
      s.fetchHead r.clone = some judged.commit
  | _ => True

/-- The judged holder may be taken over: it names `main`, or a branch that is not on the remote and
its grace is over, or no branch and its grace is over. -/
def Reclaimable (j : Judgement Sha) : Prop :=
  match parseReservationHolderLine decode number (message j.commit) with
  | .known holder => holder.branch = "main".toList ∨
      (j.presence = .absent ∧ reservationIsFresh dateParse holder.startedAt j.nowMs = false)
  | .unreadable reason recorded => reason = "missing branch".toList ∧
      reservationIsFresh dateParse (recorded.bind (·.startedAt)) j.nowMs = false
  | .legacy => False

end ReserveState

end Remudero.TaskId
