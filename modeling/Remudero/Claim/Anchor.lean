import Remudero.Host

/-! # Claim anchors and the release decisions

The pure half of `lib/dispatch-claim.ts`.  A claim on a task is a commit at the task's ref; the
commit's message is `rmd-dispatch claim <pid>@<host> <iso>`, and a renewal commit repeats that
line and adds `renewed <pid>@<host> <iso>`.  This module decodes the messages
(`parseClaimAnchorMessage`, `claimRenewalMessage`, `parseClaimRenewal`) and embeds the two
decisions made on them: the four-arm release (`decideDispatchClaimRelease`) and the silence
judge (`decideClaimSilence`).

`Date.parse` is the parameter `dateParse`; `none` stands for `NaN`. -/

namespace Remudero.Claim

open Remudero.Lib Remudero.Host

variable (dateParse : Text → Option ℤ)

/-- The identity a claim anchor's message carries. -/
structure ClaimAnchorIdentity where
  pid : ℕ
  host : Text
  mintedAtMs : ℤ
  mintedAtIso : Text
deriving DecidableEq, Repr

/-- Decimal value of a digit string. -/
def digitsValue (ds : Text) : ℕ := ds.foldl (fun n c => 10 * n + (c.toNat - 48)) 0

/-- `Number(ds)` is infinite from `2 ^ 1024 - 2 ^ 970` on. -/
def numberLimit : ℕ := (2 ^ 256) ^ 4 - (2 ^ 194) ^ 5

/-- A text without white space. -/
def solid (t : Text) : Bool := t.all (fun c => !Text.jsSpace c)

/-- `<pid>@<host> <iso>` up to the end of the line, each field non-empty. -/
def parseStamp (t : Text) : Option (Text × Text × Text) :=
  let pid := t.takeWhile Char.isDigit
  match t.dropWhile Char.isDigit with
  | '@' :: more =>
      let host := more.takeWhile (fun c => !Text.jsSpace c)
      match more.dropWhile (fun c => !Text.jsSpace c) with
      | ' ' :: iso =>
          if !pid.isEmpty && !host.isEmpty && !iso.isEmpty && solid iso then some (pid, host, iso) else none
      | _ => none
  | _ => none

/-- The stamps of the lines `<head> <pid>@<host> <iso>` of a message, in order. -/
def stampedLines (head : Text) (message : Text) : List (Text × Text × Text) :=
  (Text.splitBy Text.lineTerminator message).filterMap fun line =>
    (head.isPrefixOf? line).bind parseStamp

/-- Decode a claim anchor's message; `none` on anything but the exact shape the minter writes. -/
def parseClaimAnchorMessage (message : Option Text) : Option ClaimAnchorIdentity :=
  match stampedLines "rmd-dispatch claim ".toList (Text.trim (message.getD [])) with
  | [] => none
  | (p, host, iso) :: _ =>
      match dateParse iso with
      | none => none
      | some ms =>
          let pid := digitsValue p
          if pid < numberLimit ∧ 0 < pid then some ⟨pid, host, ms, iso⟩ else none

theorem parseClaimAnchorMessage_none : parseClaimAnchorMessage dateParse none = none := rfl

/-- The anchor's first line verbatim plus one `renewed` line; `none` when it does not decode. -/
def claimRenewalMessage (anchorMessage : Option Text) (renewer : Text) : Option Text :=
  let first := (Text.splitBy (· == '\n') (Text.trim (anchorMessage.getD []))).headD []
  if (parseClaimAnchorMessage dateParse (some first)).isSome then
    some (first ++ '\n' :: "renewed ".toList ++ renewer)
  else none

/-- A `renewed` line of a claim's tip. -/
structure ClaimRenewal where
  by_ : Text
  renewedAtMs : ℤ
  renewedAtIso : Text
deriving DecidableEq, Repr

/-- The newest `renewed` line of a message. -/
def parseClaimRenewal (message : Option Text) : Option ClaimRenewal :=
  (stampedLines "renewed ".toList (message.getD [])).foldl (fun newest s =>
    match dateParse s.2.2 with
    | none => newest
    | some ms =>
        let here : ClaimRenewal := ⟨s.1 ++ '@' :: s.2.1, ms, s.2.2⟩
        match newest with
        | none => some here
        | some n => if n.renewedAtMs < ms then some here else newest) none

/-! ### The four-arm release -/

inductive ReleaseArm where
  | holder | evidence | deadClaimant | operator
deriving DecidableEq, Repr

/-- This process's own PID namespace, as the probe reports it. -/
structure ClaimantLivenessProbe where
  localHost : Text
  namespaceBootMs : ℤ
  pidPresent : Bool
deriving DecidableEq, Repr

inductive Actor where
  | daemon | runChild | other
deriving DecidableEq, Repr

/-- The ledger row that recorded a claim's minting. -/
structure ClaimMintRow where
  host : Text
  actor : Actor
deriving DecidableEq, Repr

structure ReplacedClaimantProbe where
  localHost : Text
  lockHeldSinceMs : ℤ
  mintRow : Option ClaimMintRow
deriving DecidableEq, Repr

/-- This host's anchor predates its PID namespace and the pid is absent. -/
def deadOnThisHost (a : ClaimAnchorIdentity) (l : ClaimantLivenessProbe) : Bool :=
  sameHost (some a.host) (some l.localHost) && decide (a.mintedAtMs < l.namespaceBootMs) && !l.pidPresent

/-- A daemon or run child of this instance minted it on a container replaced since. -/
def deadByReplacement (a : ClaimAnchorIdentity) (r : ReplacedClaimantProbe) : Bool :=
  match r.mintRow with
  | none => false
  | some m =>
      !sameHost (some a.host) (some r.localHost) && sameHost (some m.host) (some a.host) &&
        (m.actor == .daemon || m.actor == .runChild) && decide (a.mintedAtMs < r.lockHeldSinceMs)

/-- The four-arm release, tried in order: the arm and whether it releases. -/
def decideDispatchClaimRelease (heldByThisRun evidenceObserved : Bool)
    (anchorIdentity : Option ClaimAnchorIdentity) (liveness : Option ClaimantLivenessProbe)
    (replaced : Option ReplacedClaimantProbe) : ReleaseArm × Bool :=
  if heldByThisRun then (.holder, true)
  else if evidenceObserved then (.evidence, true)
  else match anchorIdentity with
    | none => (.operator, false)
    | some a =>
        if (liveness.any (deadOnThisHost a)) || (replaced.any (deadByReplacement a)) then
          (.deadClaimant, true)
        else (.operator, false)

/-! ### The silence judge -/

inductive LifeSource where
  | minted | renewed | runBranch
deriving DecidableEq, Repr

structure ClaimSignOfLife where
  atMs : ℤ
  source : LifeSource
deriving DecidableEq, Repr

/-- The newest of the mint, the tip's renewal and the newest commit on a run branch. -/
def claimLastSignOfLife (anchor : ClaimAnchorIdentity) (message : Option Text)
    (branch : Option ℤ) : ClaimSignOfLife :=
  let newest : ClaimSignOfLife :=
    match parseClaimRenewal dateParse message with
    | some r => if anchor.mintedAtMs < r.renewedAtMs then ⟨r.renewedAtMs, .renewed⟩ else ⟨anchor.mintedAtMs, .minted⟩
    | none => ⟨anchor.mintedAtMs, .minted⟩
  match branch with
  | some b => if newest.atMs < b then ⟨b, .runBranch⟩ else newest
  | none => newest

/-- The p90 of this instance's claim-to-verdict durations and the number of samples. -/
structure ClaimSilenceWindow where
  windowMs : Option ℤ
  samples : ℕ
deriving DecidableEq, Repr

def dispatchClaimRenewIntervalMs : ℤ := 5 * 60000
def claimSilenceFloorMs : ℤ := 2 * dispatchClaimRenewIntervalMs

inductive ClaimSilenceVerdict where
  | alive | unrenewed | reclaim | noVerdict
deriving DecidableEq, Repr

/-- Judge a foreign claim by how long its holder has been silent. -/
def decideClaimSilence (anchor : Option ClaimAnchorIdentity)
    (lastSignOfLife : Option ClaimSignOfLife) (mintedByThisInstance : Bool)
    (window : ClaimSilenceWindow) (nowMs : ℤ) : ClaimSilenceVerdict :=
  match window.windowMs with
  | none => .noVerdict
  | some w =>
      if window.samples = 0 ∨ w ≤ 0 then .noVerdict
      else if anchor = none then .noVerdict
      else if mintedByThisInstance then .noVerdict
      else match lastSignOfLife with
        | none => .noVerdict
        | some l =>
            let silenceMs := max 0 (nowMs - l.atMs)
            let judged := max w claimSilenceFloorMs
            if 2 * judged ≤ silenceMs then .reclaim
            else if judged ≤ silenceMs then .unrenewed
            else .alive

/-- Only a decoded anchor is ever judged silent. -/
theorem decideClaimSilence_reclaim {anchor : Option ClaimAnchorIdentity}
    {life : Option ClaimSignOfLife} {mine : Bool} {window : ClaimSilenceWindow} {nowMs : ℤ}
    (h : decideClaimSilence anchor life mine window nowMs = .reclaim) :
    ∃ a l, anchor = some a ∧ life = some l ∧ mine = false := by
  unfold decideClaimSilence at h
  cases hw : window.windowMs with
  | none => simp [hw] at h
  | some w =>
      cases anchor with
      | none => simp [hw] at h
      | some a =>
          cases life with
          | none => simp [hw] at h
          | some l =>
              cases mine with
              | false => exact ⟨a, l, rfl, rfl, rfl⟩
              | true => simp [hw] at h

/-! ### Push failures -/

/-- The texts that mark a rejected push as contention. -/
def contentionMarks : List Text :=
  ["non-fast-forward".toList, "already exists".toList, "fetch first".toList, "rejected".toList]

/-- `classifyPushFailure stderr = "taken"`; otherwise the remote counts as unreachable. -/
def pushFailureTaken (stderr : Text) : Bool := contentionMarks.any (Text.containsCI stderr)

end Remudero.Claim
