import Remudero.Host

/-! # The holder recorded in a lock file

The lock files of `lib/inflight-lock.ts` and `lib/drain-lock.ts` hold the JSON of the process
that created them.  `parseInflightLockInfo` and `parseDrainLockInfo` say which texts name a
holder, and `isHolderStale` of `lib/fs-race-safe.ts` is the one predicate that decides whether a
named holder is gone.

A lock text is `blank` between the exclusive create and the write of the record, the JSON of an
object, or any other text.  A field of the object that is absent or has another type is `none`.
`Date.parse` is a parameter, `none` where it answers `NaN`.

The main result is `isHolderStale_of_running`: with probes that report a running process alive
and its start no later than its record, the record of a running process of this host is never
judged stale, whichever rung decides. -/

namespace Remudero.Lock

open Remudero.Lib
open Remudero.Host

/-- The object in a lock file. -/
structure LockJson where
  pid : Option ℤ
  runId : Option Text
  host : Option Text
  startedAt : Option Text
deriving DecidableEq, Repr

/-- The text of a lock file. -/
inductive LockText where
  | blank
  | json (o : LockJson)
  | garbage (t : Text)
deriving DecidableEq, Repr

/-- What `isHolderStale` reads of a holder. -/
structure HolderIdentity where
  pid : ℤ
  host : Option Text
  startedAt : Option Text
deriving DecidableEq, Repr

/-- A holder needs a numeric pid and a run id. -/
def parseInflightLockInfo : LockText → Option HolderIdentity
  | .json ⟨some pid, some _, host, startedAt⟩ => some ⟨pid, host, startedAt⟩
  | _ => none

/-- A holder needs a numeric pid. -/
def parseDrainLockInfo : LockText → Option HolderIdentity
  | .json ⟨some pid, _, host, startedAt⟩ => some ⟨pid, host, startedAt⟩
  | _ => none

/-- The two file locks. -/
inductive LockKind where
  | inflight
  | drain
deriving DecidableEq, Repr

/-- The record a process writes about itself. -/
structure LockInfo where
  pid : ℤ
  runId : Text
  host : Text
  startedAt : Text
deriving DecidableEq, Repr

namespace LockKind

def parseHolder : LockKind → LockText → Option HolderIdentity
  | .inflight => parseInflightLockInfo
  | .drain => parseDrainLockInfo

/-- The text written after the exclusive create; a drain record has no run id. -/
def record : LockKind → LockInfo → LockText
  | .inflight, info => .json ⟨some info.pid, some info.runId, some info.host, some info.startedAt⟩
  | .drain, info => .json ⟨some info.pid, none, some info.host, some info.startedAt⟩

@[simp] theorem parseHolder_blank (k : LockKind) : k.parseHolder .blank = none := by
  cases k <;> rfl

@[simp] theorem parseHolder_record (k : LockKind) (info : LockInfo) :
    k.parseHolder (k.record info) = some ⟨info.pid, some info.host, some info.startedAt⟩ := by
  cases k <;> rfl

end LockKind

/-- The process table and host as the judging process sees them. -/
structure Probes where
  isPidAlive : ℤ → Bool
  getProcessStartTime : ℤ → Option ℤ
  hostname : Text
  inContainer : Bool

def staleStartToleranceMs : ℤ := 2000

variable (dateParse : Text → Option ℤ)

/-- The record is older than the boot it would have to be running in. -/
def predatesBoot (held : HolderIdentity) (probes : Probes) : Bool :=
  match held.startedAt.bind dateParse, probes.getProcessStartTime 1 with
  | some lockStart, some bootTime => lockStart < bootTime - staleStartToleranceMs
  | _, _ => false

/-- The pid started after the record: the number was reused. -/
def pidReused (held : HolderIdentity) (probes : Probes) : Bool :=
  match held.startedAt.bind dateParse, probes.getProcessStartTime held.pid with
  | some lockStart, some liveStart => liveStart - lockStart > staleStartToleranceMs
  | _, _ => false

/-- Is the holder gone?  The rungs in order: host, boot, pid, start time. -/
def isHolderStale (held : HolderIdentity) (probes : Probes) : Bool :=
  let here := predatesBoot dateParse held probes || !probes.isPidAlive held.pid ||
    pidReused dateParse held probes
  match held.host with
  | some host =>
      if sameHost (some host) (some probes.hostname) then here
      else probes.inContainer && looksLikeContainerId host
  | none => here

/-- A process of this host: its pid, when it started, and when the host booted. -/
structure Running where
  pid : ℤ
  startMs : ℤ
  bootMs : ℤ
  booted : bootMs ≤ startMs

/-- The probes see the process: its pid is reported alive, and start times are read off whole
seconds of elapsed time, so they are reported at most a second late. -/
structure Probes.See (probes : Probes) (p : Running) : Prop where
  alive : probes.isPidAlive p.pid = true
  start : ∀ t, probes.getProcessStartTime p.pid = some t → t ≤ p.startMs + 1000
  boot : ∀ t, probes.getProcessStartTime 1 = some t → t ≤ p.bootMs + 1000

/-- The record of `p` on `host`, written at an instant not before `p` started. -/
structure LockInfo.Of (info : LockInfo) (p : Running) (host : Text) : Prop where
  pid : info.pid = p.pid
  host : info.host = host
  startedAt : ∀ t, dateParse info.startedAt = some t → p.startMs ≤ t

variable {dateParse}

theorem predatesBoot_of_running {info : LockInfo} {p : Running} {probes : Probes} {host : Text}
    (hinfo : info.Of dateParse p host) (hsee : probes.See p) :
    predatesBoot dateParse ⟨info.pid, some info.host, some info.startedAt⟩ probes = false := by
  unfold predatesBoot
  split
  next lockStart bootTime hl hb =>
    have h1 := hinfo.startedAt lockStart hl
    have h2 := hsee.boot bootTime hb
    have h3 := p.booted
    apply decide_eq_false
    unfold staleStartToleranceMs
    omega
  · rfl

theorem pidReused_of_running {info : LockInfo} {p : Running} {probes : Probes} {host : Text}
    (hinfo : info.Of dateParse p host) (hsee : probes.See p) :
    pidReused dateParse ⟨info.pid, some info.host, some info.startedAt⟩ probes = false := by
  unfold pidReused
  split
  next lockStart liveStart hl hs =>
    have h1 := hinfo.startedAt lockStart hl
    have h2 := hsee.start liveStart (hinfo.pid ▸ hs)
    apply decide_eq_false
    unfold staleStartToleranceMs
    omega
  · rfl

/-- The record of a process that is still running is never judged stale on its own host. -/
theorem isHolderStale_of_running {info : LockInfo} {p : Running} {probes : Probes}
    (hinfo : info.Of dateParse p probes.hostname) (hsee : probes.See p) :
    isHolderStale dateParse ⟨info.pid, some info.host, some info.startedAt⟩ probes = false := by
  have halive : probes.isPidAlive info.pid = true := hinfo.pid ▸ hsee.alive
  unfold isHolderStale
  rw [predatesBoot_of_running hinfo hsee, pidReused_of_running hinfo hsee]
  simp only [halive, hinfo.host, sameHost_self]
  -- a host that is not even compared equal to itself has no identity, so it is no container id
  by_cases hid : (hostIdentity probes.hostname).isEmpty
  · have hne : looksLikeContainerId probes.hostname = false := by
      cases hc : looksLikeContainerId probes.hostname with
      | false => rfl
      | true =>
          rw [hostIdentity_of_containerId hc] at hid
          rw [List.isEmpty_iff.mp hid] at hc
          exact absurd hc (by decide)
    simp [hid, hne]
  · simp [hid]

end Remudero.Lock
