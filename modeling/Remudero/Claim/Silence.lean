import Remudero.Claim.LanesSafety
import Remudero.Claim.Stamps

/-! # The silence judge never takes a live claim

`reclaimSilentDispatchClaim` drops a foreign claim whose holder has given no sign of life for
twice the window `W`, the p90 of this instance's claim-to-verdict durations, raised to two renewal
intervals (`claimSilenceWindow`, `decideClaimSilence`).  The pass reads the ref, reads the
message of its tip, reads the run branches and only then pushes the delete, while the holder goes
on renewing.

The lanes of `Lanes.lean` are run here under one clock: events carry the time they happen at, a
commit is signed with the time it is made at, and a pass judges by the time it was started at.
`reclaim_only_of_silent_tip` says that the commit such a pass takes away is the one it judged, made
`2W` or more before the judgement, with no run branch younger than that, and that a renewal pushed
after the judgement is never taken away. -/

namespace Remudero.Claim

open Remudero.Lib

/-! ### The observed window -/

/-- The fields of a ledger row the window is measured from; `none` when one is not a string. -/
structure ClaimRow where
  step : Option Text
  runId : Option Text
  ts : Option Text
  outcome : Option Text
deriving DecidableEq, Repr

/-- Keep the earliest time seen for a run, in the order the runs were first seen. -/
def setEarliest (m : List (Text × ℤ)) (runId : Text) (atMs : ℤ) : List (Text × ℤ) :=
  match m.lookup runId with
  | none => m ++ [(runId, atMs)]
  | some earlier =>
      if atMs < earlier then m.map (fun p => if p.1 = runId then (runId, atMs) else p) else m

variable (dateParse : Text → Option ℤ)

/-- Note a row in the maps `claimedAt` and `verdictAt`. -/
def noteClaimRow (m : List (Text × ℤ) × List (Text × ℤ)) (row : ClaimRow) :
    List (Text × ℤ) × List (Text × ℤ) :=
  match row.runId, row.ts.bind dateParse with
  | some runId, some atMs =>
      if row.step = some "dispatch.claim".toList ∧ row.outcome = some "created".toList then
        (setEarliest m.1 runId atMs, m.2)
      else if row.step = some "verdict".toList then (m.1, setEarliest m.2 runId atMs)
      else m
  | _, _ => m

/-- The claim-to-verdict durations of the runs that have both rows. -/
def claimDurations (claimedAt verdictAt : List (Text × ℤ)) : List ℤ :=
  claimedAt.filterMap fun p =>
    match verdictAt.lookup p.1 with
    | some e => if p.2 ≤ e then some (e - p.2) else none
    | none => none

/-- `W`: the p90 of the durations, at index `⌈0.9 n⌉ - 1` of the sorted ones. -/
def claimSilenceWindow (rows : List ClaimRow) : ClaimSilenceWindow :=
  let m := rows.foldl (noteClaimRow dateParse) ([], [])
  let durations := (claimDurations m.1 m.2).mergeSort (fun a b => decide (a ≤ b))
  if durations.isEmpty then ⟨none, 0⟩
  else ⟨durations[(9 * durations.length + 9) / 10 - 1]?, durations.length⟩

variable {dateParse}

/-- A claim judged silent has given no sign of life for twice the window and four renewal intervals. -/
theorem decideClaimSilence_window {anchor : Option ClaimAnchorIdentity} {l : ClaimSignOfLife}
    {mine : Bool} {window : ClaimSilenceWindow} {nowMs : ℤ}
    (h : decideClaimSilence anchor (some l) mine window nowMs = .reclaim) :
    ∃ w, window.windowMs = some w ∧ 2 * max w (2 * dispatchClaimRenewIntervalMs) ≤ nowMs - l.atMs := by
  unfold decideClaimSilence at h
  cases hw : window.windowMs with
  | none => simp [hw] at h
  | some w =>
      refine ⟨w, rfl, ?_⟩
      simp only [hw] at h
      split at h
      · cases h
      split at h
      · cases h
      split at h
      · cases h
      split at h
      next hs =>
        have hfloor : (0 : ℤ) < claimSilenceFloorMs := by decide
        have hmax : claimSilenceFloorMs ≤ max w claimSilenceFloorMs := le_max_right _ _
        have hsil : max 0 (nowMs - l.atMs) = nowMs - l.atMs ∨ max 0 (nowMs - l.atMs) = 0 :=
          (max_choice 0 (nowMs - l.atMs)).symm
        show 2 * max w claimSilenceFloorMs ≤ nowMs - l.atMs
        rcases hsil with hsil | hsil
        · rw [hsil] at hs
          exact hs
        · rw [hsil] at hs
          omega
      · split at h <;> cases h

namespace LanesState

variable {Lane Sha : Type} (dateParse : Text → Option ℤ) (message : Sha → Text)

/-! ### Lanes under one clock -/

/-- The lanes and the time of their last event. -/
structure Clocked (Lane Sha : Type) where
  lanes : LanesState Lane Sha
  clockMs : ℤ

/-- An event and the time it happens at. -/
structure TimedEvent (Lane Sha : Type) where
  atMs : ℤ
  event : LanesEvent Lane Sha

/-- A silence pass takes its time from the clock and its window from the rows it reads. -/
def ReadsClock (e : TimedEvent Lane Sha) : Prop :=
  ∀ i lane task window nowMs, e.event = .reclaimSilent i lane task window nowMs →
    nowMs = e.atMs ∧ ∃ rows, window = claimSilenceWindow dateParse rows

/-- The event makes the commit `v`. -/
def Makes (v : Sha) : LanesEvent Lane Sha → Prop
  | .attempt _ _ _ anchor => anchor = v
  | .answer _ (.minted sha) => sha = v
  | _ => False

/-- A commit is signed with the time of the event that makes it: by `mintAnchor`, or by a renewal of
the commit the lane expects. -/
def Signs (s : LanesState Lane Sha) (e : TimedEvent Lane Sha) : Prop :=
  match e.event with
  | .attempt _ _ _ anchor => ∃ p, message anchor = claimAnchorMessage p e.atMs
  | .answer i (.minted sha) => ∀ r, s.ops i = some r → ∃ p,
      match r.op with
      | .renewMinting _ expect =>
          claimRenewalMessage dateParse (some (message expect)) (claimRenewer p e.atMs) = some (message sha)
      | _ => message sha = claimAnchorMessage p e.atMs
  | _ => True

/-- A step of the lanes at a time no earlier than the last one. -/
def TimedStep [DecidableEq Lane] [DecidableEq Sha] (s : Clocked Lane Sha) (e : TimedEvent Lane Sha)
    (t : Clocked Lane Sha) : Prop :=
  Step dateParse message s.lanes e.event t.lanes ∧ s.clockMs ≤ e.atMs ∧ t.clockMs = e.atMs ∧
    ReadsClock dateParse e ∧ Signs dateParse message s.lanes e

/-- The times at which the holder of the tip `v` gave a sign of life: when an event made `v`, and the
newest commit of the run branches. -/
def SignOfLife (es : List (TimedEvent Lane Sha)) (v : Sha) (branch : Option ℤ) (atMs : ℤ) : Prop :=
  (∃ e ∈ es, Makes v e.event ∧ e.atMs = atMs) ∨ branch = some atMs

/-- The silence pass an operation belongs to: its task, window and time. -/
def silentPass : Op Sha → Option (Text × ClaimSilenceWindow × ℤ)
  | .silentReading task w n => some (task, w, n)
  | .silentMessage task _ w n => some (task, w, n)
  | .silentBranches task _ _ w n => some (task, w, n)
  | .dropping task _ (.silent _ _ w n) _ => some (task, w, n)
  | _ => none

/-- The newest run branch a pass judged by. -/
def judgedBranch : Op Sha → Option (Option ℤ)
  | .dropping _ _ (.silent _ b _ _) _ => some b
  | _ => none

/-- Operation `i` is a pass started by an event of `es` at its time, over some rows; a pass about
to drop was judged by a later event. -/
structure Started (es : List (TimedEvent Lane Sha)) (i : ℕ) (r : Running Lane Sha) : Prop where
  start : ∀ task w n, silentPass r.op = some (task, w, n) →
    (∃ rows, w = claimSilenceWindow dateParse rows) ∧
      ∃ e ∈ es, e.atMs = n ∧ e.event = .reclaimSilent i r.lane task w n
  judged : ∀ b, judgedBranch r.op = some b → ∃ e ∈ es, ∃ available mine,
    e.event = .answer i (.branches available mine (some b)) ∧
      ∀ task w n, silentPass r.op = some (task, w, n) → n ≤ e.atMs

variable {dateParse message} {s t : LanesState Lane Sha} {op op' : Op Sha} {a : Answer Sha}

theorem rest_op_silent {d : Bool} {rest : Rest Sha} (h : Rest.op d rest = some op) :
    silentPass op = none ∧ judgedBranch op = none := by
  cases rest with
  | done => cases h
  | landed claims =>
      obtain rfl := Option.some.inj h
      exact ⟨rfl, rfl⟩
  | replaced tasks =>
      obtain rfl := Option.some.inj h
      exact ⟨rfl, rfl⟩
  | retry task =>
      cases d with
      | false => cases h
      | true =>
          obtain rfl := Option.some.inj h
          exact ⟨rfl, rfl⟩

/-- The operations of a pass keep its task, window and time; its drop follows the judgement. -/
theorem NextOp.silent {remote : Refs Text Sha} (h : NextOp dateParse message remote op a op') :
    (silentPass op' = none ∨ silentPass op' = silentPass op) ∧
      ∀ b, judgedBranch op' = some b → ∃ available mine, a = .branches available mine (some b) := by
  unfold NextOp at h
  split at h
  case h_3 =>
    obtain ⟨d, hd⟩ | ⟨v, -, rfl⟩ := h
    · obtain ⟨h1, h2⟩ := rest_op_silent hd
      exact ⟨.inl h1, fun b hb => by rw [h2] at hb; cases hb⟩
    · exact ⟨.inl rfl, fun b hb => by cases hb⟩
  case h_4 =>
    obtain ⟨d, hd⟩ | ⟨w, hw, rfl⟩ := h
    · obtain ⟨h1, h2⟩ := rest_op_silent hd
      exact ⟨.inl h1, fun b hb => by rw [h2] at hb; cases hb⟩
    · obtain ⟨-, identity, rfl, -⟩ := judgeRelease_judged hw
      exact ⟨.inl rfl, fun b hb => by cases hb⟩
  case h_5 =>
    obtain ⟨-, rfl⟩ := h
    exact ⟨.inl rfl, fun b hb => by cases hb⟩
  case h_6 =>
    obtain rfl | ⟨-, rfl⟩ := h
    · exact ⟨.inl rfl, fun b hb => by cases hb⟩
    · exact ⟨.inl rfl, fun b hb => by cases hb⟩
  case h_7 =>
    obtain ⟨tasks, rfl⟩ := h
    exact ⟨.inl rfl, fun b hb => by cases hb⟩
  case h_8 =>
    obtain ⟨-, rfl⟩ | rfl := h
    · exact ⟨.inl rfl, fun b hb => by cases hb⟩
    · exact ⟨.inl rfl, fun b hb => by cases hb⟩
  case h_9 =>
    obtain ⟨v, -, rfl⟩ := h
    exact ⟨.inr rfl, fun b hb => by cases hb⟩
  case h_10 =>
    obtain ⟨m, rfl⟩ := h
    exact ⟨.inr rfl, fun b hb => by cases hb⟩
  case h_11 task v m w n available mine activity =>
    obtain ⟨w', hw, rfl⟩ := h
    obtain ⟨-, -, identity, branch, rfl, rfl, -⟩ := judgeSilence_judged hw
    refine ⟨.inr rfl, fun b hb => ⟨available, mine, ?_⟩⟩
    obtain rfl := Option.some.inj hb
    rfl
  case h_13 =>
    obtain ⟨d, hd⟩ := h
    obtain ⟨h1, h2⟩ := rest_op_silent hd
    exact ⟨.inl h1, fun b hb => by rw [h2] at hb; cases hb⟩
  case h_14 => exact h.elim
  all_goals
    subst h
    exact ⟨.inl rfl, fun b hb => by cases hb⟩

theorem Started.mono {es fs : List (TimedEvent Lane Sha)} {i : ℕ} {r : Running Lane Sha}
    (h : Started dateParse es i r) : Started dateParse (es ++ fs) i r where
  start := by
    intro task w n hp
    obtain ⟨hrows, e, he, hat⟩ := h.start task w n hp
    exact ⟨hrows, e, List.mem_append_left _ he, hat⟩
  judged := by
    intro b hb
    obtain ⟨e, he, hat⟩ := h.judged b hb
    exact ⟨e, List.mem_append_left _ he, hat⟩

/-- An operation outside every pass. -/
theorem started_of_none {es : List (TimedEvent Lane Sha)} {i : ℕ} {r : Running Lane Sha}
    (hp : silentPass r.op = none) (hb : judgedBranch r.op = none) : Started dateParse es i r where
  start := by intro task w n h; rw [hp] at h; cases h
  judged := by intro b h; rw [hb] at h; cases h

variable [DecidableEq Lane] [DecidableEq Sha]

omit [DecidableEq Lane] [DecidableEq Sha] in
/-- An event starts a pass only as `reclaimSilentDispatchClaim`. -/
theorem started_silent {e : LanesEvent Lane Sha} {i : ℕ} {lane : Lane} {op : Op Sha}
    (h : started e = some (i, lane, op)) :
    judgedBranch op = none ∧
      (silentPass op = none ∨ ∃ task w n, op = .silentReading task w n ∧ e = .reclaimSilent i lane task w n) := by
  cases e with
  | reclaimSilent j lane' task w n =>
      cases h
      exact ⟨rfl, .inr ⟨task, w, n, rfl, rfl⟩⟩
  | release j lane' task call =>
      cases call with
      | _ =>
          cases h
          exact ⟨rfl, .inl rfl⟩
  | answer j b => cases h
  | _ =>
      cases h
      exact ⟨rfl, .inl rfl⟩

omit [DecidableEq Lane] in
/-- A commit is made by one of the two events that sign it. -/
theorem respond_minted {i : ℕ} {r : Running Lane Sha} {v : Sha} {lane : Lane}
    (hstep : s.respond dateParse message i r r.op a = some t) (hv : t.minted v = some lane) :
    s.minted v = some lane ∨ a = .minted v := by
  have hpush : ∀ reach attempted, (s.push reach attempted).1.minted = s.minted := by
    intro reach attempted
    rcases push_cases s reach attempted with hs | ⟨remote, -, hs⟩
    · rw [hs]
    · rw [hs]
      rfl
  have hmint : ∀ sha, Function.update s.minted sha (some r.lane) v = some lane →
      s.minted v = some lane ∨ Answer.minted sha = .minted v := by
    intro sha hup
    by_cases hsha : v = sha
    · exact .inr (by rw [hsha])
    · rw [Function.update_of_ne hsha] at hup
      exact .inl hup
  generalize r.op = op at hstep
  unfold respond at hstep
  split at hstep
  case h_1 task anchor reach =>
    obtain rfl := Option.some.inj hstep
    exact .inl (by rw [← hpush reach]; exact hv)
  case h_3 task expect sha =>
    split at hstep
    · obtain rfl := Option.some.inj hstep
      exact hmint sha hv
    · cases hstep
  case h_4 task expect sha reach =>
    obtain rfl := Option.some.inj hstep
    exact .inl (by rw [← hpush reach]; exact hv)
  case h_16 task sha =>
    split at hstep
    · obtain rfl := Option.some.inj hstep
      exact hmint sha hv
    · cases hstep
  case h_17 task expect w rest reach =>
    obtain rfl := Option.some.inj hstep
    exact .inl (by rw [← hpush reach]; exact hv)
  -- every other answer leaves the commits alone
  all_goals
    left
    have hs : t.minted = s.minted := by
      first
        | (cases hstep <;> rfl)
        | (split at hstep <;> cases hstep <;> rfl)
    rw [← hs]
    exact hv

theorem minted_step {e : LanesEvent Lane Sha} {v : Sha} {lane : Lane} (hstep : Step dateParse message s e t)
    (hv : t.minted v = some lane) : s.minted v = some lane ∨ Makes v e := by
  have launched : ∀ {i : ℕ} {lane' : Lane} {op : Op Sha}, s.launch i lane' op = some t → s.minted v = some lane := by
    intro i lane' op hl
    obtain rfl := launch_eq hl
    exact hv
  cases e with
  | attempt i lane' task anchor =>
      simp only [Step, next] at hstep
      split at hstep
      · obtain ⟨s', hl, rfl⟩ := Option.map_eq_some_iff.mp hstep
        by_cases ha : v = anchor
        · exact .inr ha.symm
        · simp only [Function.update_of_ne ha] at hv
          exact .inl hv
      · cases hstep
  | renew i lane' task expect =>
      simp only [Step, next] at hstep
      split at hstep
      · exact .inl (launched hstep)
      · cases hstep
  | release i lane' task call =>
      cases call with
      | own anchor =>
          simp only [Step, next] at hstep
          split at hstep
          · exact .inl (launched hstep)
          · cases hstep
      | evidence => exact .inl (launched hstep)
      | probe => exact .inl (launched hstep)
  | sweepLanded i lane' => exact .inl (launched hstep)
  | sweepReplaced i lane' => exact .inl (launched hstep)
  | reclaimSilent i lane' task window nowMs => exact .inl (launched hstep)
  | answer i b =>
      simp only [Step, next] at hstep
      split at hstep
      · cases hstep
      next r hr =>
        obtain hold | rfl := respond_minted hstep hv
        · exact .inl hold
        · exact .inr rfl

/-- A commit carries the time of the event that makes it. -/
theorem madeAt_of_makes {s t : Clocked Lane Sha} {e : TimedEvent Lane Sha} {v : Sha}
    (hstep : TimedStep dateParse message s e t) (hv : Makes v e.event) : MadeAt dateParse (message v) e.atMs := by
  obtain ⟨hl, -, -, -, hsigns⟩ := hstep
  obtain ⟨atMs, event⟩ := e
  cases event with
  | attempt i lane task anchor =>
      obtain rfl : anchor = v := hv
      obtain ⟨p, hp⟩ := hsigns
      exact ⟨p, .inl hp⟩
  | answer i b =>
      cases b with
      | minted sha =>
          obtain rfl : sha = v := hv
          obtain ⟨j, b, r, he, hr, -⟩ | ⟨j, lane, op, he, -⟩ := step_cases hl
          · cases he
            obtain ⟨p, hp⟩ := hsigns r hr
            refine ⟨p, ?_⟩
            split at hp
            · exact .inr ⟨_, hp⟩
            · exact .inl hp
          · cases he
      | _ => exact hv.elim
  | _ => exact hv.elim

variable (dateParse message) in
/-- What the passes of a run know of its events. -/
structure TimedInv (es : List (TimedEvent Lane Sha)) (s : Clocked Lane Sha) : Prop where
  lanes : Inv dateParse message s.lanes
  past : ∀ e ∈ es, e.atMs ≤ s.clockMs
  started : ∀ i r, s.lanes.ops i = some r → Started dateParse es i r
  made : ∀ v lane, s.lanes.minted v = some lane → ∃ e ∈ es, Makes v e.event
  signed : ∀ e ∈ es, ∀ v, Makes v e.event → MadeAt dateParse (message v) e.atMs

theorem timedInv_step {es : List (TimedEvent Lane Sha)} {s t : Clocked Lane Sha} {e : TimedEvent Lane Sha}
    (h : TimedInv dateParse message es s) (hstep : TimedStep dateParse message s e t) :
    TimedInv dateParse message (es ++ [e]) t := by
  obtain ⟨hl, hle, hclock, hreads, -⟩ := id hstep
  refine ⟨inv_step h.lanes hl, ?_, ?_, ?_, ?_⟩
  · intro f hf
    rw [hclock]
    rcases List.mem_append.mp hf with hf | hf
    · exact (h.past f hf).trans hle
    · obtain rfl := List.mem_singleton.mp hf
      exact le_rfl
  · intro j q hj
    obtain ⟨i, a, r, he, hr, hresp⟩ | ⟨i, lane, op, hop, ht, -⟩ := step_cases hl
    · obtain ⟨o, ht, ho⟩ := respond_next hresp
      rw [ht] at hj
      by_cases hji : j = i
      · subst hji
        rw [Function.update_self] at hj
        obtain ⟨hlane, hnext⟩ := ho q hj
        obtain ⟨hpass, hjudged⟩ := hnext.silent
        have hold := h.started j r hr
        -- a pass goes on as it was started
        have start : ∀ task w n, silentPass q.op = some (task, w, n) →
            silentPass r.op = some (task, w, n) := by
          intro task w n hq
          rcases hpass with hn | hs
          · rw [hn] at hq
            cases hq
          · rw [← hs]
            exact hq
        refine ⟨?_, ?_⟩
        · intro task w n hq
          rw [hlane]
          exact (hold.mono.start task w n (start task w n hq))
        · intro b hqb
          obtain ⟨available, mine, rfl⟩ := hjudged b hqb
          refine ⟨e, List.mem_append_right _ (List.mem_singleton_self _), available, mine, he, ?_⟩
          intro task w n hq
          obtain ⟨-, f, hf, hfat, -⟩ := hold.start task w n (start task w n hq)
          have hpast := h.past f hf
          omega
      · rw [Function.update_of_ne hji] at hj
        exact (h.started j q hj).mono
    · rw [ht] at hj
      by_cases hji : j = i
      · subst hji
        rw [Function.update_self] at hj
        obtain rfl := Option.some.inj hj
        obtain ⟨hb, hp⟩ := started_silent hop
        rcases hp with hn | ⟨task, w, n, rfl, he⟩
        · exact started_of_none hn hb
        · obtain ⟨rfl, hrows⟩ := hreads _ _ _ _ _ he
          refine ⟨?_, fun b hqb => by cases hqb⟩
          intro task' w' n' hq
          obtain ⟨rfl, rfl, rfl⟩ := by simpa [silentPass] using hq
          exact ⟨hrows, e, List.mem_append_right _ (List.mem_singleton_self _), rfl, he⟩
      · rw [Function.update_of_ne hji] at hj
        exact (h.started j q hj).mono
  · intro v lane hv
    obtain hold | hmakes := minted_step hl hv
    · obtain ⟨f, hf, hmade⟩ := h.made v lane hold
      exact ⟨f, List.mem_append_left _ hf, hmade⟩
    · exact ⟨e, List.mem_append_right _ (List.mem_singleton_self _), hmakes⟩
  · intro f hf v hv
    rcases List.mem_append.mp hf with hf | hf
    · exact h.signed f hf v hv
    · obtain rfl := List.mem_singleton.mp hf
      exact madeAt_of_makes hstep hv

theorem timedInv_run {es : List (TimedEvent Lane Sha)} {startMs : ℤ} {s : Clocked Lane Sha}
    (hr : Run (TimedStep dateParse message) ⟨init, startMs⟩ es s) : TimedInv dateParse message es s := by
  refine hr.invariant_trace (I := TimedInv dateParse message) (fun _ _ _ _ h hs => timedInv_step h hs) ?_
  refine ⟨inv_init, ?_, ?_, ?_, ?_⟩
  · intro e he
    cases he
  · intro i r hi
    cases hi
  · intro v lane hv
    cases hv
  · intro e he
    cases he

/-! ### What a pass may take away -/

/-- A timed run, without its times. -/
theorem run_untimed {es : List (TimedEvent Lane Sha)} {s t : Clocked Lane Sha}
    (hr : Run (TimedStep dateParse message) s es t) :
    Run (Step dateParse message) s.lanes (es.map TimedEvent.event) t.lanes :=
  hr.map (f := Clocked.lanes) (g := TimedEvent.event) fun _ _ _ h => h.1

theorem inv_run_timed {es : List (TimedEvent Lane Sha)} {s t : Clocked Lane Sha}
    (hr : Run (TimedStep dateParse message) s es t) (h : Inv dateParse message s.lanes) :
    Inv dateParse message t.lanes :=
  (run_untimed hr).invariant (I := Inv dateParse message) (fun _ _ _ h hs => inv_step h hs) h

/-- A drop answered while its commit is not at the ref changes nothing. -/
theorem dropping_misses {s t : LanesState Lane Sha} {i : ℕ} {r : Running Lane Sha} {a : Answer Sha}
    {task : Text} {v : Sha} {w : Warrant} {rest : Rest Sha} (hi : s.ops i = some r)
    (hop : r.op = .dropping task (some v) w rest) (hstep : Step dateParse message s (.answer i a) t)
    (hv : s.remote task ≠ some v) : t.remote = s.remote := by
  have hresp : s.respond dateParse message i r r.op a = some t := by
    simpa only [Step, next, hi] using hstep
  rw [hop] at hresp
  cases a with
  | push reach =>
      obtain rfl := Option.some.inj hresp
      have hlease : s.remote.lease task v none = none := by
        unfold Refs.lease
        rw [if_neg hv]
      have hpush : (s.push reach (s.remote.lease task v none)).1 = s := by
        rw [hlease]
        cases reach <;> rfl
      show (s.push reach (s.remote.lease task v none)).1.remote = s.remote
      rw [hpush]
  | _ => cases hresp

variable (dateParse message) in
/-- A pass of `reclaimSilentDispatchClaim` takes a commit off a ref only if it is the tip whose
message the pass judged, and at the judgement every sign of life of its holder was at least twice the
larger of the observed window and two renewal intervals old.  A renewal that reaches the ref between
the judgement and the answer to the pass's delete survives it. -/
theorem reclaim_only_of_silent_tip (startMs : ℤ) :
    (∀ (es : List (TimedEvent Lane Sha)) (s t : Clocked Lane Sha) (now : ℤ) (i : ℕ) (a : Answer Sha)
        (r : Running Lane Sha) (task task' : Text) (v : Sha) (expect : Option Sha)
        (identity : ClaimAnchorIdentity) (branch : Option ℤ) (window : ClaimSilenceWindow) (nowMs : ℤ)
        (rest : Rest Sha),
      Run (TimedStep dateParse message) ⟨init, startMs⟩ es s →
      (∀ e ∈ es, dateParse (toISOString e.atMs) = some e.atMs) →
      TimedStep dateParse message s ⟨now, .answer i a⟩ t →
      s.lanes.ops i = some r → r.op = .dropping task' expect (.silent identity branch window nowMs) rest →
      s.lanes.remote task = some v → t.lanes.remote task ≠ some v →
      task' = task ∧ expect = some v ∧ v ∈ r.reads ∧
        parseClaimAnchorMessage dateParse (some (message v)) = some identity ∧
        ∃ rows w judgement available mine, window = claimSilenceWindow dateParse rows ∧
          window.windowMs = some w ∧ judgement ∈ es ∧
          judgement.event = .answer i (.branches available mine (some branch)) ∧
          (∃ e ∈ es, Makes v e.event) ∧
          ∀ atMs, SignOfLife es v branch atMs →
            2 * max w (2 * dispatchClaimRenewIntervalMs) ≤ judgement.atMs - atMs) ∧
    ∀ (es₁ es₂ es₃ : List (TimedEvent Lane Sha)) (s₁ s₂ s₃ s₄ t : Clocked Lane Sha) (now now' : ℤ) (i j : ℕ)
        (a b : Answer Sha) (r q : Running Lane Sha) (task : Text) (expect : Option Sha) (tip sha : Sha)
        (identity : ClaimAnchorIdentity) (branch : Option ℤ) (window : ClaimSilenceWindow) (nowMs : ℤ)
        (rest : Rest Sha),
      Run (TimedStep dateParse message) ⟨init, startMs⟩ es₁ s₁ →
      s₁.lanes.ops i = some r → r.op = .dropping task expect (.silent identity branch window nowMs) rest →
      Run (TimedStep dateParse message) s₁ es₂ s₂ →
      s₂.lanes.ops j = some q → q.op = .renewPushing task tip sha →
      TimedStep dateParse message s₂ ⟨now, .answer j b⟩ s₃ → s₃.lanes.remote task = some sha →
      Run (TimedStep dateParse message) s₃ es₃ s₄ → s₄.lanes.ops i = some r →
      TimedStep dateParse message s₄ ⟨now', .answer i a⟩ t →
      t.lanes.remote = s₄.lanes.remote := by
  constructor
  · intro es s t now i a r task task' v expect identity branch window nowMs rest hrun hdate hstep hi hop hv hne
    have hinv := timedInv_run hrun
    have hok := hinv.lanes.ops_ok i r hi
    have hresp : s.lanes.respond dateParse message i r r.op a = some t.lanes := by
      simpa only [Step, next, hi] using hstep.1
    unfold OpOk at hok
    rw [hop] at hok
    cases expect with
    | none => exact absurd hok.2 (by simp)
    | some e =>
        obtain ⟨-, hread, -, hj⟩ := hok
        obtain hn | ⟨w, rest', ho⟩ := respond_removes hresp hv hne
        · rw [hop] at hn
          obtain ⟨rfl, rfl⟩ := hn
          have hjudged : JudgedSilent dateParse message e identity branch window nowMs := by
            rcases hj with hj | hret
            · exact hj
            · exact absurd hv (hinv.lanes.retired_off _ hret _)
          obtain ⟨hanchor, hdec⟩ := hjudged
          obtain ⟨w, hw, hsilent⟩ := decideClaimSilence_window hdec
          have hs := hinv.started i r hi
          obtain ⟨⟨rows, hrows⟩, -⟩ := hs.start task' window nowMs (by rw [hop]; rfl)
          obtain ⟨judgement, hmem, available, mine, hev, hlate⟩ := hs.judged branch (by rw [hop]; rfl)
          have hlater := hlate task' window nowMs (by rw [hop]; rfl)
          obtain ⟨lane, hminted⟩ := hinv.lanes.minted_remote task' e hv
          have hmade := hinv.made e lane hminted
          refine ⟨rfl, rfl, hread, hanchor, rows, w, judgement, available, mine, hrows, hw, hmem, hev, hmade, ?_⟩
          rintro atMs (⟨f, hf, hmakes, rfl⟩ | hbranch)
          · have hle := (madeAt_le_lastSignOfLife branch (hinv.signed f hf e hmakes) (hdate f hf) hanchor).1
            omega
          · obtain ⟨f, hf, hmakes⟩ := hmade
            have hle := (madeAt_le_lastSignOfLife branch (hinv.signed f hf e hmakes) (hdate f hf) hanchor).2 atMs hbranch
            omega
        · rw [hop] at ho
          cases ho
  · intro es₁ es₂ es₃ s₁ s₂ s₃ s₄ t now now' i j a b r q task expect tip sha identity branch window nowMs rest
      h₁ hi hop h₂ hj hq hpush hsha h₃ hi₄ hdrop
    have hinv₁ := (timedInv_run h₁).lanes
    have hok := hinv₁.ops_ok i r hi
    unfold OpOk at hok
    rw [hop] at hok
    cases expect with
    | none => exact absurd hok.2 (by simp)
    | some v =>
        have hseen₁ : s₁.lanes.SeenAt task v := hok.2.2.1
        have hinv₂ := inv_run_timed h₂ hinv₁
        have hunborn : s₂.lanes.Unborn q.lane sha := by
          have hok₂ := hinv₂.ops_ok j q hj
          unfold OpOk at hok₂
          rw [hq] at hok₂
          exact hok₂.2
        have hne : sha ≠ v := by
          rintro rfl
          rcases seenAt_run (run_untimed h₂) hseen₁ with hat | hret
          · exact hunborn.2.2 task hat
          · exact hunborn.2.1 hret
        -- the renewal took the judged commit's place, or found it gone already
        have hret₃ : s₃.lanes.retired v := by
          rcases (seen_step hpush.1).2 task v (seenAt_run (run_untimed h₂) hseen₁) with hat | hret
          · rw [hsha] at hat
            exact absurd (Option.some.inj hat) hne
          · exact hret
        have hinv₄ := inv_run_timed h₃ (inv_step hinv₂ hpush.1)
        exact dropping_misses hi₄ hop hdrop.1 (hinv₄.retired_off v (retired_run (run_untimed h₃) hret₃) task)

/-! ### A renewed claim that falls silent

A claim minted at midnight is renewed after five minutes; the pass of another lane judges it twenty
minutes later, by a window of ten. -/

def mintMs : ℤ := 1767225600000

def renewMs : ℤ := mintMs + 300000

def verdictMs : ℤ := mintMs + 600000

def judgeMs : ℤ := renewMs + 1200000

/-- `Date.parse` of the times that are read. -/
def isoDate (t : Text) : Option ℤ := [mintMs, renewMs, verdictMs, judgeMs].find? fun ms => toISOString ms = t

theorem isoDate_toISOString : ∀ ms ∈ [mintMs, renewMs, verdictMs, judgeMs], isoDate (toISOString ms) = some ms := by
  decide +kernel

def silentHolder : ClaimProcess := ⟨7, ['h'], by decide, by decide⟩

/-- The mint, its renewal, and a renewal at the time of the judgement. -/
def silentMessage : ℕ → Text
  | 0 => claimAnchorMessage silentHolder mintMs
  | 1 => claimAnchorMessage silentHolder mintMs ++ '\n' :: "renewed ".toList ++ claimRenewer silentHolder renewMs
  | _ => claimAnchorMessage silentHolder mintMs ++ '\n' :: "renewed ".toList ++ claimRenewer silentHolder judgeMs

theorem first_renewal : claimRenewalMessage isoDate (some (silentMessage 0)) (claimRenewer silentHolder renewMs) =
    some (silentMessage 1) := by
  decide +kernel

theorem second_renewal : claimRenewalMessage isoDate (some (silentMessage 1)) (claimRenewer silentHolder judgeMs) =
    some (silentMessage 2) := by
  decide +kernel

def silentRows : List ClaimRow :=
  [⟨some "dispatch.claim".toList, some ['r'], some (toISOString mintMs), some "created".toList⟩,
    ⟨some "verdict".toList, some ['r'], some (toISOString verdictMs), none⟩]

def silentWindow : ClaimSilenceWindow := ⟨some 600000, 1⟩

theorem silentRows_window : claimSilenceWindow isoDate silentRows = silentWindow := by
  have hrows : silentRows.foldl (noteClaimRow isoDate) ([], []) = ([(['r'], mintMs)], [(['r'], verdictMs)]) := by
    decide +kernel
  have hdurations : claimDurations [(['r'], mintMs)] [(['r'], verdictMs)] = [600000] := by
    decide
  simp [claimSilenceWindow, hrows, hdurations, silentWindow]

def silentIdentity : ClaimAnchorIdentity := ⟨7, ['h'], mintMs, toISOString mintMs⟩

theorem silent_judged : judgeSilence isoDate silentMessage 1 true false (some none) silentWindow judgeMs =
    some (.silent silentIdentity none silentWindow judgeMs) := by
  have hparse : parseClaimAnchorMessage isoDate (some (silentMessage 1)) = some silentIdentity := by
    decide +kernel
  have hverdict : decideClaimSilence (some silentIdentity)
      (some (claimLastSignOfLife isoDate silentIdentity (some (silentMessage 1)) none)) false silentWindow judgeMs =
        .reclaim := by
    decide +kernel
  simp only [judgeSilence, if_true, hparse, hverdict]

theorem timed_plain {s t : LanesState ℕ ℕ} {c n : ℤ} {e : LanesEvent ℕ ℕ}
    (h : Step isoDate silentMessage s e t) (hle : c ≤ n) (hpass : ∀ i lane task w n, e ≠ .reclaimSilent i lane task w n)
    (hmakes : ∀ v, ¬ Makes v e) : TimedStep isoDate silentMessage ⟨s, c⟩ ⟨n, e⟩ ⟨t, n⟩ := by
  refine ⟨h, hle, rfl, ?_, ?_⟩
  · intro i lane task w n h
    exact absurd h (hpass i lane task w n)
  · unfold Signs
    split
    next heq =>
      obtain rfl : e = _ := heq
      exact absurd rfl (hmakes _)
    next heq =>
      obtain rfl : e = _ := heq
      exact absurd rfl (hmakes _)
    · trivial

theorem timed_pass {s t : LanesState ℕ ℕ} {c n : ℤ} {i lane : ℕ}
    (h : Step isoDate silentMessage s (.reclaimSilent i lane ['T'] silentWindow n) t) (hle : c ≤ n) :
    TimedStep isoDate silentMessage ⟨s, c⟩ ⟨n, .reclaimSilent i lane ['T'] silentWindow n⟩ ⟨t, n⟩ := by
  refine ⟨h, hle, rfl, ?_, trivial⟩
  intro i lane task w n h
  obtain ⟨-, -, -, rfl, rfl⟩ := by simpa using h
  exact ⟨rfl, silentRows, silentRows_window.symm⟩

theorem timed_mint {s t : LanesState ℕ ℕ} {c n : ℤ} {i expect sha : ℕ} {r : Running ℕ ℕ}
    (h : Step isoDate silentMessage s (.answer i (.minted sha)) t) (hle : c ≤ n) (hi : s.ops i = some r)
    (hop : r.op = .renewMinting ['T'] expect)
    (hrenew : claimRenewalMessage isoDate (some (silentMessage expect)) (claimRenewer silentHolder n) =
      some (silentMessage sha)) :
    TimedStep isoDate silentMessage ⟨s, c⟩ ⟨n, .answer i (.minted sha)⟩ ⟨t, n⟩ := by
  refine ⟨h, hle, rfl, ?_, ?_⟩
  · intro i lane task w n h
    cases h
  · intro q hq
    rw [hi] at hq
    obtain rfl := Option.some.inj hq
    refine ⟨silentHolder, ?_⟩
    rw [hop]
    exact hrenew

/-- The holder claims and renews. -/
def renewedEvents : List (TimedEvent ℕ ℕ) :=
  [⟨mintMs, .attempt 0 1 ['T'] 0⟩, ⟨mintMs, .answer 0 (.push .answered)⟩, ⟨renewMs, .renew 1 1 ['T'] 0⟩,
    ⟨renewMs, .answer 1 (.read true)⟩, ⟨renewMs, .answer 1 (.minted 1)⟩, ⟨renewMs, .answer 1 (.push .answered)⟩]

/-- The pass reads the tip, its message and the run branches. -/
def judgedEvents : List (TimedEvent ℕ ℕ) :=
  [⟨judgeMs, .reclaimSilent 2 2 ['T'] silentWindow judgeMs⟩, ⟨judgeMs, .answer 2 (.read true)⟩,
    ⟨judgeMs, .answer 2 (.message true)⟩, ⟨judgeMs, .answer 2 (.branches true false (some none))⟩]

def silentDrop : Running ℕ ℕ :=
  ⟨2, [1, 1], .dropping ['T'] (some 1) (.silent silentIdentity none silentWindow judgeMs) (.retry ['T'])⟩

/-- A judgement that reclaims goes on to the drop of the tip it read first. -/
theorem branches_step {s : LanesState ℕ ℕ} {i v m : ℕ} {r : Running ℕ ℕ} {task : Text} {window : ClaimSilenceWindow}
    {nowMs : ℤ} {available mine : Bool} {activity : Option (Option ℤ)} {w : Warrant} (hi : s.ops i = some r)
    (hop : r.op = .silentBranches task v m window nowMs)
    (hw : judgeSilence isoDate silentMessage m available mine activity window nowMs = some w) :
    Step isoDate silentMessage s (.answer i (.branches available mine activity))
      (s.go i r (some (.dropping task (some v) w (.retry task)))) := by
  simp only [Step, next, hi, hop, respond, hw]

theorem judged_run : ∃ s : LanesState ℕ ℕ,
    Run (TimedStep isoDate silentMessage) ⟨init, mintMs⟩ (renewedEvents ++ judgedEvents) ⟨s, judgeMs⟩ ∧
      s.ops 2 = some silentDrop ∧ s.ops 3 = none ∧ s.remote ['T'] = some 1 ∧ s.minted 1 = some 1 ∧
      s.minted 2 = none := by
  have hrenew : mintMs ≤ renewMs := by decide
  have hjudge : renewMs ≤ judgeMs := by decide
  have hattempt : TimedStep isoDate silentMessage ⟨init, mintMs⟩ ⟨mintMs, .attempt 0 1 ['T'] 0⟩ ⟨_, mintMs⟩ :=
    ⟨rfl, le_rfl, rfl, fun _ _ _ _ _ h => (by cases h), silentHolder, rfl⟩
  refine ⟨_, .cons hattempt (.cons (timed_plain rfl le_rfl (by simp) (by simp [Makes]))
    (.cons (timed_plain rfl hrenew (by simp) (by simp [Makes])) (.cons (timed_plain rfl le_rfl (by simp) (by simp [Makes]))
    (.cons (timed_mint rfl le_rfl rfl rfl first_renewal) (.cons (timed_plain rfl le_rfl (by simp) (by simp [Makes]))
    (.cons (timed_pass rfl hjudge) (.cons (timed_plain rfl le_rfl (by simp) (by simp [Makes]))
    (.cons (timed_plain rfl le_rfl (by simp) (by simp [Makes]))
    (.single (timed_plain (branches_step rfl rfl silent_judged) le_rfl (by simp) (by simp [Makes])))))))))))
    , rfl, rfl, rfl, rfl, rfl⟩

/-- The state of operation `3`, a renewal of the tip by its holder, up to its push. -/
def renewing (s : LanesState ℕ ℕ) (op : Op ℕ) : LanesState ℕ ℕ :=
  { s with
    ops := Function.update s.ops 3 (some ⟨1, [], op⟩)
    minted := match op with
      | .renewPushing _ _ sha => Function.update s.minted sha (some 1)
      | _ => s.minted }

theorem renewing_self (s : LanesState ℕ ℕ) (op : Op ℕ) : (renewing s op).ops 3 = some ⟨1, [], op⟩ := by
  simp [renewing]

theorem renewing_pass (s : LanesState ℕ ℕ) (op : Op ℕ) : (renewing s op).ops 2 = s.ops 2 := by
  simp [renewing]

theorem renewing_run {s : LanesState ℕ ℕ} (hfree : s.ops 3 = none) (hremote : s.remote ['T'] = some 1)
    (hminted : s.minted 1 = some 1) (hfresh : s.minted 2 = none) :
    Run (TimedStep isoDate silentMessage) ⟨s, judgeMs⟩
      [⟨judgeMs, .renew 3 1 ['T'] 1⟩, ⟨judgeMs, .answer 3 (.read true)⟩, ⟨judgeMs, .answer 3 (.minted 2)⟩]
      ⟨renewing s (.renewPushing ['T'] 1 2), judgeMs⟩ := by
  have hlaunch : Step isoDate silentMessage s (.renew 3 1 ['T'] 1) (renewing s (.renewListing ['T'] 1)) := by
    simp only [Step, next, hminted, if_true, launch, hfree]
    rfl
  have hlist : Step isoDate silentMessage (renewing s (.renewListing ['T'] 1)) (.answer 3 (.read true))
      (renewing s (.renewMinting ['T'] 1)) := by
    simp [Step, next, renewing, respond, hremote, go, setOp]
  have hmint : Step isoDate silentMessage (renewing s (.renewMinting ['T'] 1)) (.answer 3 (.minted 2))
      (renewing s (.renewPushing ['T'] 1 2)) := by
    simp [Step, next, renewing, respond, hfresh, go, setOp]
  exact .cons (timed_plain hlaunch le_rfl (by simp) (by simp [Makes]))
    (.cons (timed_plain hlist le_rfl (by simp) (by simp [Makes]))
    (.single (timed_mint hmint le_rfl (renewing_self _ _) rfl second_renewal)))

/-- The pass takes the silent claim, and leaves the ref alone once the holder has renewed it. -/
theorem silent_tip_reclaimed_renewed_tip_kept :
    (∃ s t : Clocked ℕ ℕ, s.lanes.remote ['T'] = some 1 ∧ t.lanes.remote ['T'] = none ∧
      ∃ judgement ∈ renewedEvents ++ judgedEvents, ∀ atMs, SignOfLife (renewedEvents ++ judgedEvents) 1 none atMs →
        2 * 600000 ≤ judgement.atMs - atMs) ∧
    ∃ s t : Clocked ℕ ℕ, s.lanes.remote ['T'] = some 2 ∧ t.lanes.remote ['T'] = some 2 := by
  obtain ⟨s, hrun, hops, hfree, hremote, hminted, hfresh⟩ := judged_run
  have hlease : ∀ v, s.remote.lease ['T'] 1 v = some (Function.update s.remote ['T'] v) := fun v => by
    rw [Refs.lease, if_pos hremote]
  constructor
  · have hdrop : Step isoDate silentMessage s (.answer 2 (.push .answered))
        ((s.setRemote (Function.update s.remote ['T'] none)).go 2 silentDrop (some (.silentMinting ['T']))) := by
      simp only [Step, next, hops, silentDrop, respond, hlease, push, Rest.op, if_true]
    have hdates : ∀ e ∈ renewedEvents ++ judgedEvents, isoDate (toISOString e.atMs) = some e.atMs := by
      intro e he
      refine isoDate_toISOString _ ?_
      simp only [renewedEvents, judgedEvents, List.cons_append, List.nil_append, List.mem_cons, List.not_mem_nil,
        or_false] at he
      obtain rfl | rfl | rfl | rfl | rfl | rfl | rfl | rfl | rfl | rfl := he <;> simp
    have hgone : (Function.update s.remote ['T'] none) ['T'] = (none : Option ℕ) := Function.update_self _ _ _
    obtain ⟨-, -, -, -, rows, w, judgement, available, mine, hrows, hw, hmem, -, -, hsilent⟩ :=
      (reclaim_only_of_silent_tip isoDate silentMessage mintMs).1 _ _ ⟨_, judgeMs⟩ judgeMs 2 _ silentDrop ['T'] ['T'] 1 _ _
        _ _ _ _ hrun hdates (timed_plain hdrop le_rfl (by simp) (by simp [Makes])) hops rfl hremote
        (by simp [go, setOp, setRemote])
    refine ⟨⟨s, judgeMs⟩, ⟨s.setRemote (Function.update s.remote ['T'] none), judgeMs⟩, hremote, hgone, judgement, hmem,
      fun atMs hat => ?_⟩
    have hwindow : w = 600000 := (Option.some.inj hw).symm
    have hle := hsilent atMs hat
    rw [hwindow] at hle
    exact hle
  · -- the holder's renewal `2` reaches the ref before the delete is answered
    have hrenewing := renewing_run hfree hremote hminted hfresh
    generalize hpushing : renewing s (.renewPushing ['T'] 1 2) = u at hrenewing
    have hthree : u.ops 3 = some ⟨1, [], .renewPushing ['T'] 1 2⟩ := by rw [← hpushing, renewing_self]
    have htwo : u.ops 2 = some silentDrop := by rw [← hpushing, renewing_pass, hops]
    have hpush : Step isoDate silentMessage u (.answer 3 (.push .answered))
        ((u.setRemote (Function.update s.remote ['T'] (some 2))).setOp 3 none) := by
      have hleased : u.remote.lease ['T'] 1 (some 2) = some (Function.update s.remote ['T'] (some 2)) := by
        rw [← hpushing]
        exact hlease (some 2)
      simp only [Step, next, hthree, respond, hleased, push]
    generalize hrenewed : (u.setRemote (Function.update s.remote ['T'] (some 2))).setOp 3 none = v at hpush
    have htip : v.remote ['T'] = some 2 := by
      rw [← hrenewed]
      exact Function.update_self ['T'] (some 2) s.remote
    have hpass : v.ops 2 = some silentDrop := by
      rw [← hrenewed, ← htwo]
      simp [setOp, setRemote]
    obtain ⟨t, hdrop⟩ : ∃ t, Step isoDate silentMessage v (.answer 2 (.push .answered)) t := by
      simp only [Step, next, hpass, silentDrop, respond]
      exact ⟨_, rfl⟩
    have hkeep := (reclaim_only_of_silent_tip isoDate silentMessage mintMs).2 _ _ [] _ _ ⟨v, judgeMs⟩ _ ⟨t, judgeMs⟩ judgeMs
      judgeMs 2 3 _ _ silentDrop _ ['T'] _ _ 2 _ _ _ _ _ hrun hops rfl hrenewing hthree rfl
      (timed_plain hpush le_rfl (by simp) (by simp [Makes])) htip .nil hpass
      (timed_plain hdrop le_rfl (by simp) (by simp [Makes]))
    exact ⟨⟨v, judgeMs⟩, ⟨t, judgeMs⟩, htip, by rw [hkeep]; exact htip⟩

end LanesState

end Remudero.Claim
