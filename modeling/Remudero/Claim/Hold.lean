import Remudero.Lib.Refs
import Remudero.Lib.Transition
import Remudero.Claim.Anchor

/-! # Holding a claim by renewing it

`holdDispatchClaim` of `lib/dispatch-claim.ts` as a state machine.  A timer starts a renewal
unless one is in flight; the renewal is the sequence of git commands of the reserver's `renew`:
`ls-remote`, `fetch`, `cat-file`, `commit-tree`, and a push leased on the commit last written.
Each event is one answer of git, with what really happened on the remote: a push may be
accepted, fail without effect, or take effect and be reported as failed.  No other party writes
the ref.

`holdDispatchClaim` believes the reported outcome.  `hold_releasable_iff` says when that belief is
right: the commit the handle reports is the tip of the ref at every quiescent state of a run,
and the holder never concludes that it lost its claim, exactly when no push of the run is
misreported, that is, takes effect under a failure report, or fails with a text that reads as
contention. -/

namespace Remudero.Claim

open Remudero.Lib

variable {Sha : Type} (dateParse : Text → Option ℤ) (taskId : Text)

/-- Where the renewal in flight stands: the command whose answer it awaits. -/
inductive RenewPhase (Sha : Type) where
  | listing
  | fetching
  | reading
  | minting
  | pushing (sha : Sha)
deriving DecidableEq

/-- One renewal's outcome. -/
inductive DispatchClaimRenewal (Sha : Type) where
  | renewed (sha : Sha)
  | lost
  | unreachable
deriving DecidableEq

/-- What a leased push did and what it was reported to do. -/
inductive PushAnswer where
  | accepted
  | failed (stderr : Text)
  | appliedButFailed (stderr : Text)
deriving DecidableEq

/-- The remote and the handle's variables; `concludedLost` records a `lost` outcome. -/
structure HoldState (Sha : Type) where
  remote : Refs Text Sha
  held : Sha
  inFlight : Option (RenewPhase Sha)
  stopped : Bool
  concludedLost : Bool

/-- A tick of the interval timer, `stop()`, or the answer to the command in flight. -/
inductive HoldEvent (Sha : Type) where
  | timer
  | stop
  | lsRemote (failed : Bool)
  | fetch (failed : Bool)
  | catFile (message : Option Text) (renewer : Text)
  | commitTree (minted : Option Sha)
  | pushRefused
  | push (answer : PushAnswer)

namespace HoldState

/-- `current()`, and what `stop()` returns once nothing is in flight. -/
def current (s : HoldState Sha) : Sha := s.held

/-- `renewOnce` after the reserver answered. -/
def settle (s : HoldState Sha) : DispatchClaimRenewal Sha → HoldState Sha
  | .renewed sha => { s with held := sha, inFlight := none }
  | .lost => { s with stopped := true, concludedLost := true, inFlight := none }
  | .unreachable => { s with inFlight := none }

/-- The outcome `renewalOutcome` reads off a failed push. -/
def failedPush (stderr : Text) : DispatchClaimRenewal Sha :=
  if pushFailureTaken stderr then .lost else .unreachable

variable [DecidableEq Sha]

/-- One event of the handle; `none` when the event is not possible in the state. -/
def next (s : HoldState Sha) : HoldEvent Sha → Option (HoldState Sha)
  | .timer =>
      if s.stopped || s.inFlight.isSome then some s else some { s with inFlight := some .listing }
  | .stop => some { s with stopped := true }
  | .lsRemote failed =>
      if s.inFlight = some .listing then
        if failed then some (s.settle .unreachable)
        else if s.remote taskId = some s.held then some { s with inFlight := some .fetching }
        else some (s.settle .lost)
      else none
  | .fetch failed =>
      if s.inFlight = some .fetching then
        if failed then some (s.settle .unreachable) else some { s with inFlight := some .reading }
      else none
  | .catFile message renewer =>
      if s.inFlight = some .reading then
        if (claimRenewalMessage dateParse message renewer).isSome then
          some { s with inFlight := some .minting }
        else some (s.settle .unreachable)
      else none
  | .commitTree minted =>
      if s.inFlight = some .minting then
        match minted with
        | none => some (s.settle .unreachable)
        -- the new commit has `held` as its parent, so it is another commit
        | some sha => if sha = s.held then none else some { s with inFlight := some (.pushing sha) }
      else none
  | .pushRefused =>
      match s.inFlight with
      | some (.pushing _) => some (s.settle .unreachable)
      | _ => none
  | .push answer =>
      match s.inFlight with
      | some (.pushing sha) =>
          match answer with
          | .accepted =>
              (s.remote.lease taskId s.held (some sha)).map fun r => { s with remote := r }.settle (.renewed sha)
          | .failed stderr => some (s.settle (failedPush stderr))
          | .appliedButFailed stderr =>
              (s.remote.lease taskId s.held (some sha)).map fun r => { s with remote := r }.settle (failedPush stderr)
      | _ => none

/-- The steps of the handle. -/
def Step (s : HoldState Sha) (e : HoldEvent Sha) (t : HoldState Sha) : Prop :=
  s.next dateParse taskId e = some t

/-- The state `holdDispatchClaim` starts in: the attempt just created the ref at `anchor`. -/
def start (remote : Refs Text Sha) (anchor : Sha) : HoldState Sha where
  remote := Function.update remote taskId (some anchor)
  held := anchor
  inFlight := none
  stopped := false
  concludedLost := false

/-- Between renewals the reported commit is the tip, so a drop pinned to it succeeds, and the
holder has not concluded that it lost its claim. -/
def Releasable (s : HoldState Sha) : Prop :=
  s.concludedLost = false ∧
    (s.inFlight = none → s.remote taskId = some s.current ∧ (s.remote.lease taskId s.current none).isSome)

end HoldState

/-- The push took effect under a failure report, or failed with a text that reads as contention. -/
def HoldEvent.Misreported : HoldEvent Sha → Prop
  | .push (.appliedButFailed _) => True
  | .push (.failed stderr) => pushFailureTaken stderr = true
  | _ => False

instance : DecidablePred (@HoldEvent.Misreported Sha) := fun e =>
  match e with
  | .push (.appliedButFailed _) => isTrue trivial
  | .push (.failed stderr) => inferInstanceAs (Decidable (pushFailureTaken stderr = true))
  | .push .accepted => isFalse id
  | .timer => isFalse id
  | .stop => isFalse id
  | .lsRemote _ => isFalse id
  | .fetch _ => isFalse id
  | .catFile _ _ => isFalse id
  | .commitTree _ => isFalse id
  | .pushRefused => isFalse id

namespace HoldState

/-- The handle's view agrees with the remote. -/
structure Synced (s : HoldState Sha) : Prop where
  tip : s.remote taskId = some s.held
  kept : s.concludedLost = false
  fresh : ∀ sha, s.inFlight = some (.pushing sha) → sha ≠ s.held

variable {dateParse taskId} {s t : HoldState Sha} {e : HoldEvent Sha}

theorem synced_start (remote : Refs Text Sha) (anchor : Sha) :
    (start taskId remote anchor).Synced taskId where
  tip := by simp [start]
  kept := rfl
  fresh := by intro sha h; simp [start] at h

/-- A renewal that ends without a new commit leaves the view as it was. -/
theorem Synced.unreachable (h : s.Synced taskId) : (s.settle .unreachable).Synced taskId where
  tip := h.tip
  kept := h.kept
  fresh := by intro sha hs; simp [settle] at hs

theorem Synced.phase (h : s.Synced taskId) {p : RenewPhase Sha}
    (hp : ∀ sha, p = .pushing sha → sha ≠ s.held) : ({ s with inFlight := some p } : HoldState Sha).Synced taskId where
  tip := h.tip
  kept := h.kept
  fresh := by
    intro sha hs
    exact hp sha (Option.some.inj hs)

variable [DecidableEq Sha]

theorem Synced.releasable (h : s.Synced taskId) : s.Releasable taskId := by
  refine ⟨h.kept, fun _ => ⟨h.tip, ?_⟩⟩
  simp [Refs.lease, current, h.tip]

/-- An accepted push moves the tip and the handle together. -/
theorem Synced.renewed (h : s.Synced taskId) {sha : Sha} {r : Refs Text Sha}
    (hl : s.remote.lease taskId s.held (some sha) = some r) :
    (({ s with remote := r } : HoldState Sha).settle (.renewed sha)).Synced taskId where
  tip := by
    obtain ⟨_, rfl⟩ := Refs.lease_eq hl
    simp [settle]
  kept := h.kept
  fresh := by intro sha' hs; simp [settle] at hs

theorem synced_step (h : s.Synced taskId) (hs : Step dateParse taskId s e t)
    (hok : ¬ e.Misreported) : t.Synced taskId := by
  unfold Step next at hs
  cases e with
  | timer =>
      simp only at hs
      split at hs
      · obtain rfl := Option.some.inj hs; exact h
      · obtain rfl := Option.some.inj hs; exact h.phase (by intro sha hp; cases hp)
  | stop =>
      obtain rfl := Option.some.inj hs
      exact ⟨h.tip, h.kept, h.fresh⟩
  | lsRemote failed =>
      simp only [h.tip, if_true] at hs
      split at hs
      · split at hs
        · obtain rfl := Option.some.inj hs; exact h.unreachable
        · obtain rfl := Option.some.inj hs; exact h.phase (by intro sha hp; cases hp)
      · cases hs
  | fetch failed =>
      simp only at hs
      split at hs
      · split at hs
        · obtain rfl := Option.some.inj hs; exact h.unreachable
        · obtain rfl := Option.some.inj hs; exact h.phase (by intro sha hp; cases hp)
      · cases hs
  | catFile message renewer =>
      simp only at hs
      split at hs
      · split at hs
        · obtain rfl := Option.some.inj hs; exact h.phase (by intro sha hp; cases hp)
        · obtain rfl := Option.some.inj hs; exact h.unreachable
      · cases hs
  | commitTree minted =>
      simp only at hs
      split at hs
      · cases minted with
        | none => obtain rfl := Option.some.inj hs; exact h.unreachable
        | some sha =>
            simp only at hs
            split at hs
            · cases hs
            · obtain rfl := Option.some.inj hs
              refine h.phase fun sha' hp => ?_
              cases hp
              assumption
      · cases hs
  | pushRefused =>
      simp only at hs
      split at hs
      · obtain rfl := Option.some.inj hs; exact h.unreachable
      · cases hs
  | push answer =>
      simp only at hs
      split at hs
      · cases answer with
        | accepted =>
            obtain ⟨r, hr, rfl⟩ := Option.map_eq_some_iff.mp hs
            exact h.renewed hr
        | failed stderr =>
            obtain rfl := Option.some.inj hs
            have hne : pushFailureTaken stderr = false := by
              simpa [HoldEvent.Misreported] using hok
            simp only [failedPush, hne]
            exact h.unreachable
        | appliedButFailed stderr => exact absurd trivial hok
      · cases hs

/-- A misreported push leaves the handle quiescent and wrong about its claim. -/
theorem not_releasable_of_misreported (h : s.Synced taskId) (hs : Step dateParse taskId s e t)
    (hbad : e.Misreported) : ¬ t.Releasable taskId := by
  unfold Step next at hs
  cases e with
  | push answer =>
      simp only at hs
      split at hs
      case h_2 => cases hs
      case h_1 sha hp =>
        cases answer with
        | accepted => exact absurd hbad id
        | failed stderr =>
            obtain rfl := Option.some.inj hs
            have ht : pushFailureTaken stderr = true := hbad
            intro hrel
            have hk := hrel.1
            simp [failedPush, ht, settle] at hk
        | appliedButFailed stderr =>
            obtain ⟨r, hr, rfl⟩ := Option.map_eq_some_iff.mp hs
            obtain ⟨_, rfl⟩ := Refs.lease_eq hr
            rintro ⟨_, hq⟩
            -- whatever the report reads as, the handle still names the old commit
            cases ht : pushFailureTaken stderr with
            | true =>
                have := (hq (by simp [failedPush, ht, settle])).1
                simp [failedPush, ht, settle, current] at this
                exact h.fresh sha hp this
            | false =>
                have := (hq (by simp [failedPush, ht, settle])).1
                simp [failedPush, ht, settle, current] at this
                exact h.fresh sha hp this
  | timer => exact absurd hbad id
  | stop => exact absurd hbad id
  | lsRemote failed => exact absurd hbad id
  | fetch failed => exact absurd hbad id
  | catFile message renewer => exact absurd hbad id
  | commitTree minted => exact absurd hbad id
  | pushRefused => exact absurd hbad id

/-- A run without a misreported push keeps the handle's view in step with the remote. -/
theorem synced_run {remote : Refs Text Sha} {anchor : Sha} {es : List (HoldEvent Sha)}
    (hr : Run (Step dateParse taskId) (start taskId remote anchor) es s)
    (hok : ∀ e ∈ es, ¬ e.Misreported) : s.Synced taskId := by
  induction hr with
  | nil => exact synced_start remote anchor
  | snoc _ hs ih =>
      refine synced_step (ih fun e he => hok e (by simp [he])) hs (hok _ (by simp))

/-- **The holder's view over whole runs.**  The claim stays releasable in every state of a run
exactly when no push of the run is misreported. -/
theorem hold_releasable_iff {remote : Refs Text Sha} {anchor : Sha} {es : List (HoldEvent Sha)}
    (hr : Run (Step dateParse taskId) (start taskId remote anchor) es s) :
    (∀ fs u, fs <+: es → Run (Step dateParse taskId) (start taskId remote anchor) fs u →
      u.Releasable taskId) ↔ ∀ e ∈ es, ¬ e.Misreported := by
  constructor
  · -- look at the first misreported push: up to it the view was in step with the remote
    intro hall
    induction hr with
    | nil => simp
    | @snoc es u v e hu hs ih =>
        have hpre : ∀ e ∈ es, ¬ e.Misreported :=
          ih fun fs w hfs hw => hall fs w (hfs.trans (List.prefix_append _ _)) hw
        intro f hf
        rcases List.mem_append.mp hf with hf | hf
        · exact hpre f hf
        · obtain rfl := List.mem_singleton.mp hf
          intro hbad
          exact not_releasable_of_misreported (synced_run hu hpre) hs hbad
            (hall _ _ (List.prefix_refl _) (hu.snoc hs))
  · intro hok fs u hfs hu
    exact (synced_run hu fun e he => hok e (hfs.subset he)).releasable

/-! ### A renewal that takes effect under a failure report -/

section misreport

/-- The anchor message of the runs below. -/
def claimMessage : Text := "rmd-dispatch claim 7@host 0".toList

/-- One renewal whose push is answered by `answer`. -/
def renewalEvents (sha : ℕ) (answer : PushAnswer) : List (HoldEvent ℕ) :=
  [.timer, .lsRemote false, .fetch false, .catFile (some claimMessage) [], .commitTree (some sha), .push answer]

/-- A renewal push that times out after the remote applied it, then one more tick: the handle
still reports the anchor, the tip is the renewal commit, and the tick ends in `lost`. -/
theorem hold_loses_own_claim : ∃ s : HoldState ℕ,
    Run (Step (fun _ => some 0) "W1-T1".toList) (start "W1-T1".toList (fun _ => none) 0)
      (renewalEvents 1 (.appliedButFailed "timed out".toList) ++ [.timer, .lsRemote false]) s ∧
    s.inFlight = none ∧ s.remote "W1-T1".toList ≠ some s.current ∧ s.concludedLost = true ∧
    ¬ s.Releasable "W1-T1".toList := by
  refine ⟨_, Run.of_foldlM rfl, rfl, ?_, rfl, ?_⟩
  · decide
  · rintro ⟨h, _⟩
    exact absurd h (by decide)

/-- The equivalence on a run of one accepted renewal. -/
theorem hold_releasable_after_renewal : ∃ s : HoldState ℕ,
    Run (Step (fun _ => some 0) "W1-T1".toList) (start "W1-T1".toList (fun _ => none) 0)
      (renewalEvents 1 .accepted) s ∧
    ∀ fs u, fs <+: renewalEvents 1 .accepted →
      Run (Step (fun _ => some 0) "W1-T1".toList) (start "W1-T1".toList (fun _ => none) 0) fs u →
      u.Releasable "W1-T1".toList := by
  have hr : Run (Step (fun _ => some 0) "W1-T1".toList) (start "W1-T1".toList (fun _ => none) 0)
      (renewalEvents 1 .accepted) _ := Run.of_foldlM rfl
  refine ⟨_, hr, (hold_releasable_iff hr).mpr ?_⟩
  decide

end misreport

end HoldState

end Remudero.Claim
