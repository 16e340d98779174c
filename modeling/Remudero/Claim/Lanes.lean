import Remudero.Lib.Refs
import Remudero.Lib.Transition
import Remudero.Claim.Anchor

/-! # Lanes racing for claims

Any number of lanes run the claim operations of `lib/dispatch-claim.ts` against one remote, a
store of refs with create-if-absent pushes and lease-pinned updates and deletes.  Each operation
is a sequence of git commands; `Op` says which command it is about to issue and what it has read
so far, and one event is the answer to one command, so a run is an arbitrary interleaving.

* `attempting`: the push of `attempt` after `mintAnchor`;
* `renewListing`, `renewMinting`, `renewPushing`: `renew` of a lane's own claim;
* `releaseReading`, `releaseJudging`: the probing half of `releaseDispatchClaim`;
* `landedListing`, `landedNext`: `releaseLandedDispatchClaims`;
* `replacedListing`, `replacedNext`: `releaseReplacedContainerClaims`;
* `silentReading`, `silentMessage`, `silentBranches`, `silentMinting`: `reclaimSilentDispatchClaim`;
* `dropping`: the delete push every release ends in, pinned to a commit or not.

A commit's message never changes, so it is a parameter `message`.  Two fields of the state are
for the proofs only: `minted` records which lane minted a commit and `retired` the commits that
were taken off a ref.

`LanesSafety.lean` proves what the operations may take away from a ref. -/

namespace Remudero.Claim

open Remudero.Lib

variable {Lane Sha : Type}

/-- The judgement behind a drop. -/
inductive Warrant where
  /-- the caller's own claim -/
  | own
  /-- the task's work was observed landed -/
  | evidence
  | deadClaimant (identity : ClaimAnchorIdentity) (liveness : Option ClaimantLivenessProbe)
      (replaced : Option ReplacedClaimantProbe)
  | silent (identity : ClaimAnchorIdentity) (branch : Option ℤ) (window : ClaimSilenceWindow) (nowMs : ℤ)

/-- What an operation does once a drop has been answered. -/
inductive Rest (Sha : Type) where
  | done
  | landed (claims : List (Text × Sha))
  | replaced (tasks : List Text)
  | retry (task : Text)

/-- An operation in flight, at the command it is about to issue. -/
inductive Op (Sha : Type) where
  | attempting (task : Text) (anchor : Sha)
  | renewListing (task : Text) (expect : Sha)
  | renewMinting (task : Text) (expect : Sha)
  | renewPushing (task : Text) (expect sha : Sha)
  | releaseReading (task : Text) (rest : Rest Sha)
  | releaseJudging (task : Text) (judged : Sha) (rest : Rest Sha)
  | landedListing
  | landedNext (claims : List (Text × Sha))
  | replacedListing
  | replacedNext (tasks : List Text)
  | silentReading (task : Text) (window : ClaimSilenceWindow) (nowMs : ℤ)
  | silentMessage (task : Text) (judged : Sha) (window : ClaimSilenceWindow) (nowMs : ℤ)
  | silentBranches (task : Text) (judged read : Sha) (window : ClaimSilenceWindow) (nowMs : ℤ)
  | silentMinting (task : Text)
  | dropping (task : Text) (expect : Option Sha) (warrant : Warrant) (rest : Rest Sha)

/-- An operation in flight: its lane, the commits it has read off the remote, where it stands. -/
structure Running (Lane Sha : Type) where
  lane : Lane
  reads : List Sha
  op : Op Sha

/-- The remote and the operations in flight. -/
structure LanesState (Lane Sha : Type) where
  remote : Refs Text Sha
  ops : ℕ → Option (Running Lane Sha)
  minted : Sha → Option Lane
  retired : Sha → Prop

/-- How a push or a read fared: answered, never arrived, or applied with its answer lost. -/
inductive Reach where
  | answered
  | unreachable
  | replyLost
deriving DecidableEq, Repr

/-- A call of `releaseDispatchClaim` or `releaseDispatchClaimAsync`.  Only the landed sweep
passes a commit along with its evidence. -/
inductive ReleaseCall (Sha : Type) where
  | own (anchor : Sha)
  | evidence
  | probe

/-- The answer to the command an operation is about to issue. -/
inductive Answer (Sha : Type) where
  | push (reach : Reach)
  | read (reachable : Bool)
  | minted (sha : Sha)
  | probed (available : Bool) (liveness : ClaimAnchorIdentity → Option ClaimantLivenessProbe)
      (replaced : ClaimAnchorIdentity → Option ReplacedClaimantProbe)
  | listing (claims : List (Text × Sha))
  | judged (merged indeterminate rerun : Bool)
  | message (reachable : Bool)
  | branches (available mine : Bool) (activity : Option (Option ℤ))

/-- One event: a lane starts an operation under a new number, or a command is answered. -/
inductive LanesEvent (Lane Sha : Type) where
  | attempt (i : ℕ) (lane : Lane) (task : Text) (anchor : Sha)
  | renew (i : ℕ) (lane : Lane) (task : Text) (expect : Sha)
  | release (i : ℕ) (lane : Lane) (task : Text) (call : ReleaseCall Sha)
  | sweepLanded (i : ℕ) (lane : Lane)
  | sweepReplaced (i : ℕ) (lane : Lane)
  | reclaimSilent (i : ℕ) (lane : Lane) (task : Text) (window : ClaimSilenceWindow) (nowMs : ℤ)
  | answer (i : ℕ) (a : Answer Sha)

namespace LanesState

/-- Replace operation `i`. -/
def setOp (s : LanesState Lane Sha) (i : ℕ) (r : Option (Running Lane Sha)) : LanesState Lane Sha :=
  { s with ops := Function.update s.ops i r }

/-- Put the answer of a push into the state; commits taken off a ref are retired. -/
def setRemote (s : LanesState Lane Sha) (remote : Refs Text Sha) : LanesState Lane Sha :=
  { s with
    remote := remote
    retired := fun v => s.retired v ∨ ∃ task, s.remote task = some v ∧ remote task ≠ some v }

/-- A push that would change the remote to `attempted`, and whether it is reported done. -/
def push (s : LanesState Lane Sha) (reach : Reach) (attempted : Option (Refs Text Sha)) :
    LanesState Lane Sha × Bool :=
  match reach, attempted with
  | .answered, some r => (s.setRemote r, true)
  | .replyLost, some r => (s.setRemote r, false)
  | _, _ => (s, false)

/-- The operation that goes on after a drop, or a claim left alone. -/
def Rest.op (dropped : Bool) : Rest Sha → Option (Op Sha)
  | .done => none
  | .landed claims => some (.landedNext claims)
  | .replaced tasks => some (.replacedNext tasks)
  | .retry task => if dropped then some (.silentMinting task) else none

variable (dateParse : Text → Option ℤ) (message : Sha → Text)

/-- The judge of the `dead-claimant` arm on the commit `judged`. -/
def judgeRelease (judged : Sha) (available : Bool)
    (liveness : ClaimAnchorIdentity → Option ClaimantLivenessProbe)
    (replaced : ClaimAnchorIdentity → Option ReplacedClaimantProbe) : Option Warrant :=
  match parseClaimAnchorMessage dateParse (if available then some (message judged) else none) with
  | none => none
  | some a =>
      if (decideDispatchClaimRelease false false (some a) (liveness a) (replaced a)).2 then
        some (.deadClaimant a (liveness a) (replaced a))
      else none

/-- The silence judge on the message of the commit `read`. -/
def judgeSilence (read : Sha) (available mine : Bool) (activity : Option (Option ℤ))
    (window : ClaimSilenceWindow) (nowMs : ℤ) : Option Warrant :=
  let text := if available then some (message read) else none
  match parseClaimAnchorMessage dateParse text, activity with
  | some a, some branch =>
      if decideClaimSilence (some a) (some (claimLastSignOfLife dateParse a text branch)) mine window nowMs =
          .reclaim then
        some (.silent a branch window nowMs)
      else none
  | _, _ => none

variable [DecidableEq Lane] [DecidableEq Sha]

/-- Continue operation `i` after a read or a judgement. -/
def go (s : LanesState Lane Sha) (i : ℕ) (r : Running Lane Sha) (op : Option (Op Sha)) :
    LanesState Lane Sha :=
  s.setOp i (op.map fun op => { r with op := op })

/-- The answer `a` to the command of operation `i`. -/
def respond (s : LanesState Lane Sha) (i : ℕ) (r : Running Lane Sha) :
    Op Sha → Answer Sha → Option (LanesState Lane Sha)
  | .attempting task anchor, .push reach =>
      some ((s.push reach (s.remote.create task anchor)).1.setOp i none)
  | .renewListing task expect, .read reachable =>
      if reachable ∧ s.remote task = some expect then some (s.go i r (some (.renewMinting task expect)))
      else some (s.setOp i none)
  | .renewMinting task expect, .minted sha =>
      if s.minted sha = none then
        some { s.go i r (some (.renewPushing task expect sha)) with
          minted := Function.update s.minted sha (some r.lane) }
      else none
  | .renewPushing task expect sha, .push reach =>
      some ((s.push reach (s.remote.lease task expect (some sha))).1.setOp i none)
  | .releaseReading task rest, .read reachable =>
      match (if reachable then s.remote task else none) with
      | none => some (s.go i r (Rest.op false rest))
      | some v => some (s.go i { r with reads := v :: r.reads } (some (.releaseJudging task v rest)))
  | .releaseJudging task v rest, .probed available liveness replaced =>
      match judgeRelease dateParse message v available liveness replaced with
      | none => some (s.go i r (Rest.op false rest))
      | some w => some (s.go i r (some (.dropping task (some v) w rest)))
  | .landedListing, .listing claims =>
      if claims.all (fun c => s.remote c.1 == some c.2) then
        some (s.go i { r with reads := claims.map (·.2) ++ r.reads } (some (.landedNext claims)))
      else none
  | .landedNext [], _ => some (s.setOp i none)
  | .landedNext ((task, v) :: claims), .judged merged indeterminate rerun =>
      if !merged || indeterminate || rerun then some (s.go i r (some (.landedNext claims)))
      else some (s.go i r (some (.dropping task (some v) .evidence (.landed claims))))
  | .replacedListing, .listing claims =>
      if claims.all (fun c => s.remote c.1 == some c.2) then
        some (s.go i r (some (.replacedNext (claims.map (·.1)))))
      else none
  | .replacedNext [], _ => some (s.setOp i none)
  | .replacedNext (task :: tasks), .judged merged _ _ =>
      if merged then some (s.go i r (some (.dropping task none .evidence (.replaced tasks))))
      else some (s.go i r (some (.releaseReading task (.replaced tasks))))
  | .silentReading task window nowMs, .read reachable =>
      match (if reachable ∧ 0 < window.samples then s.remote task else none) with
      | none => some (s.setOp i none)
      | some v =>
          some (s.go i { r with reads := v :: r.reads } (some (.silentMessage task v window nowMs)))
  | .silentMessage task v window nowMs, .message reachable =>
      match (if reachable then s.remote task else none) with
      | none => some (s.setOp i none)
      | some m =>
          some (s.go i { r with reads := m :: r.reads } (some (.silentBranches task v m window nowMs)))
  | .silentBranches task v m window nowMs, .branches available mine activity =>
      match judgeSilence dateParse message m available mine activity window nowMs with
      | none => some (s.setOp i none)
      | some w => some (s.go i r (some (.dropping task (some v) w (.retry task))))
  | .silentMinting task, .minted sha =>
      if s.minted sha = none then
        some { s.go i r (some (.attempting task sha)) with
          minted := Function.update s.minted sha (some r.lane) }
      else none
  | .dropping task expect _ rest, .push reach =>
      let attempted := match expect with
        | some e => s.remote.lease task e none
        | none => s.remote.erase task
      let (s', dropped) := s.push reach attempted
      some (s'.go i r (Rest.op dropped rest))
  | _, _ => none

/-- Start an operation under the unused number `i`. -/
def launch (s : LanesState Lane Sha) (i : ℕ) (lane : Lane) (op : Op Sha) : Option (LanesState Lane Sha) :=
  if (s.ops i).isSome then none else some (s.setOp i (some ⟨lane, [], op⟩))

/-- One event; `none` when it is not possible in the state. -/
def next (s : LanesState Lane Sha) : LanesEvent Lane Sha → Option (LanesState Lane Sha)
  | .attempt i lane task anchor =>
      if s.minted anchor = none then
        (s.launch i lane (.attempting task anchor)).map fun s' =>
          { s' with minted := Function.update s.minted anchor (some lane) }
      else none
  | .renew i lane task expect =>
      -- a lane renews the commit its own attempt or last renewal wrote
      if s.minted expect = some lane then s.launch i lane (.renewListing task expect) else none
  | .release i lane task (.own anchor) =>
      if s.minted anchor = some lane then s.launch i lane (.dropping task (some anchor) .own .done) else none
  | .release i lane task .evidence => s.launch i lane (.dropping task none .evidence .done)
  | .release i lane task .probe => s.launch i lane (.releaseReading task .done)
  | .sweepLanded i lane => s.launch i lane .landedListing
  | .sweepReplaced i lane => s.launch i lane .replacedListing
  | .reclaimSilent i lane task window nowMs => s.launch i lane (.silentReading task window nowMs)
  | .answer i a =>
      match s.ops i with
      | none => none
      | some r => s.respond dateParse message i r r.op a

/-- The steps of the lanes. -/
def Step (s : LanesState Lane Sha) (e : LanesEvent Lane Sha) (t : LanesState Lane Sha) : Prop :=
  s.next dateParse message e = some t

/-- An empty remote and no operation in flight. -/
def init : LanesState Lane Sha where
  remote := fun _ => none
  ops := fun _ => none
  minted := fun _ => none
  retired := fun _ => False

/-! ### What a lane may take away -/

/-- The answer shows the operation that `task` holds the commit `v`. -/
def Shows (s : LanesState Lane Sha) (task : Text) (v : Sha) : Op Sha → Answer Sha → Prop
  | .releaseReading t _, .read reachable => t = task ∧ reachable = true ∧ s.remote task = some v
  | .landedListing, .listing claims => (task, v) ∈ claims ∧ s.remote task = some v
  | .silentReading t _ _, .read reachable => t = task ∧ reachable = true ∧ s.remote task = some v
  | _, _ => False

/-- The answer releases the claim `v` of `task`: the sweep is told that the listed claim's task is
merged, that this is certain and that no re-run is due; the claimant of `v` is found dead; or the
tip `v` is judged silent. -/
def Releases (task : Text) (v : Sha) : Op Sha → Answer Sha → Prop
  | .landedNext ((t, e) :: _), .judged merged indeterminate rerun =>
      (t = task ∧ e = v) ∧ merged = true ∧ indeterminate = false ∧ rerun = false
  | .releaseJudging t e _, .probed available liveness replaced =>
      (t = task ∧ e = v) ∧ available = true ∧
        ∃ a, parseClaimAnchorMessage dateParse (some (message v)) = some a ∧
          (decideDispatchClaimRelease false false (some a) (liveness a) (replaced a)).2 = true
  | .silentBranches t e read window nowMs, .branches available mine activity =>
      (t = task ∧ e = v ∧ read = v) ∧ available = true ∧ mine = false ∧
        ∃ a branch, activity = some branch ∧ parseClaimAnchorMessage dateParse (some (message v)) = some a ∧
          decideClaimSilence (some a) (some (claimLastSignOfLife dateParse a (some (message v)) branch))
            false window nowMs = .reclaim
  | _, _ => False

/-- The operation is about to issue a push leased on the commit `v` at `task`. -/
def Names (task : Text) (v : Sha) : Op Sha → Prop
  | .renewPushing t e _ => t = task ∧ e = v
  | .dropping t (some e) _ _ => t = task ∧ e = v
  | _ => False

/-- The event starts no release on evidence alone: no call names evidence without a commit, and
the replaced-container sweep is not told that a listed task is merged. -/
def Pinned (s : LanesState Lane Sha) : LanesEvent Lane Sha → Prop
  | .release _ _ _ .evidence => False
  | .answer i (.judged merged _ _) =>
      ∀ r task tasks, s.ops i = some r → r.op = .replacedNext (task :: tasks) → merged = false
  | _ => True

end LanesState

end Remudero.Claim
