import Remudero.Lib.Row

/-! # Arming auto-merge from the ledger

`priorReviewVerdictFromLedger`, `cappedOverrideFromLedger` and `decideArmFromLedgerVerdict` of
`lib/review.ts`.  Two scans over the ledger rows, each with its own conditions and the last row
winning, feed one decision for the current head of a pull request.

`arms_on_latest_verdict` is the result: the decision arms only on the last verdict row of the pull
request, if that is a success for this head, and a capped one only with an override for this head;
a later failure or a later success for another head takes the arming away. -/

namespace Remudero.Review

open Remudero.Lib

/-! ### Rows -/

/-- A row with a `pr_url` belongs to that pull request; one without belongs to its task. -/
def reviewRowNamesPr (line : Row) (key : Option Text) (prUrl : Text) : Bool :=
  match line.str "pr_url" with
  | some url => url == prUrl
  | none => key.any fun k => line.str "task_id" == some k

/-- The row is about the pull request or, without one, about the task. -/
def rowIsFor (line : Row) (taskId : Text) : Option Text → Bool
  | none => line.str "task_id" == some taskId
  | some prUrl => reviewRowNamesPr line (some taskId) prUrl

/-! ### The prior verdict -/

inductive ReviewState where
  | success
  | failure
deriving DecidableEq, Repr

structure PriorReviewVerdict where
  headSha : Text
  state : ReviewState
  capped : Bool
  planOnly : Bool
  cappedFieldAbsent : Bool := false
  partiallyExecuted : Option Bool := none
  ownDiffDigest : Option Text := none
  mergeBaseSha : Option Text := none
  reviewContractDigest : Option Text := none
deriving DecidableEq, Repr

/-- `success` or `failure`; any other state is not a verdict. -/
def stateOf (line : Row) : Option ReviewState :=
  if line.str "state" = some "success".toList then some .success
  else if line.str "state" = some "failure".toList then some .failure
  else none

/-- The verdict a row records, if it is one for this pull request. -/
def verdictOf (taskId : Text) (prUrl : Option Text) (line : Row) : Option PriorReviewVerdict :=
  if line.str "step" ≠ some "review.posted".toList then none
  else if !rowIsFor line taskId prUrl then none
  else
    match line.str "head_sha", stateOf line with
    | some headSha, some state =>
        some
          { headSha := headSha
            state := state
            capped := (line.bool "capped").getD false
            planOnly := (line.bool "plan_only").getD false
            cappedFieldAbsent := (line.bool "capped").isNone
            partiallyExecuted := line.bool "partially_executed"
            ownDiffDigest := line.str "own_diff_digest"
            mergeBaseSha := line.str "merge_base_sha"
            reviewContractDigest := line.str "review_contract_digest" }
    | _, _ => none

/-- The last one wins. -/
def lastOf {α β : Type*} (f : α → Option β) (l : List α) : Option β :=
  l.foldl (fun found a => match f a with | some b => some b | none => found) none

def priorReviewVerdictFromLedger (lines : List Row) (taskId : Text) (prUrl : Option Text) :
    Option PriorReviewVerdict :=
  lastOf (verdictOf taskId prUrl) lines

/-! ### The override -/

structure CappedOverride where
  by_ : Text
  reason : Text
  headSha : Text
deriving DecidableEq, Repr

/-- The override a row grants for this head. -/
def overrideOf (taskId headSha : Text) (prUrl : Option Text) (line : Row) : Option CappedOverride :=
  if line.str "step" ≠ some "automerge.capped_override_granted".toList then none
  else if !rowIsFor line taskId prUrl then none
  else
    match line.str "by", line.str "reason", line.str "head_sha" with
    | some who, some reason, some sha => if sha = headSha then some ⟨who, reason, sha⟩ else none
    | _, _, _ => none

def cappedOverrideFromLedger (lines : List Row) (taskId headSha : Text) (prUrl : Option Text) :
    Option CappedOverride :=
  lastOf (overrideOf taskId headSha prUrl) lines

/-! ### The decision -/

structure ArmDecision where
  arm : Bool
  reason : Text
  bandWarning : Option Text := none
deriving DecidableEq

/-- A row of the operator's calibration table. -/
structure ArmCalibrationBandRow where
  class_ : Text
  verdict : Text
  note : Option Text := none

def applyCalibrationBand (base : ArmDecision) (verdictClass : Text)
    (bands : List ArmCalibrationBandRow) : ArmDecision :=
  match bands.find? fun r => r.class_ == verdictClass with
  | none => base
  | some row =>
      if row.verdict = "hold".toList then
        { arm := false
          reason := "calibration-band:".toList ++ verdictClass ++
            " — an operator-ratified band holds this class (underlying verdict: ".toList ++
            base.reason ++ ")".toList }
      else if row.verdict = "notify".toList then
        let note := match row.note with
          | some n => if (Text.trim n).isEmpty then [] else " — ".toList ++ n
          | none => []
        { arm := base.arm
          reason := base.reason ++ " (calibration-band:".toList ++ verdictClass ++
            " notify".toList ++ note ++ ")".toList }
      else
        { base with
          bandWarning := some ("calibration-band:".toList ++ verdictClass ++
            " row is malformed (verdict must be \"hold\" or \"notify\", got ".toList ++
            Json.quote row.verdict ++ ") — ignored, decision unchanged".toList) }

/-- The parts of a verdict the arming rule reads. -/
structure ArmVerdict where
  state : ReviewState
  capped : Bool
  planOnly : Bool
  partiallyExecuted : Bool := false
  executedProofCount : Option ℕ := none
  executableProofCount : Option ℕ := none

def partialPassReason (v : ArmVerdict) : Text :=
  match v.executedProofCount, v.executableProofCount with
  | some executed, some executable =>
      "verdict is a PARTIAL PASS (".toList ++ Nat.toDigits 10 executed ++ "/".toList ++
        Nat.toDigits 10 executable ++
        (" executable criteria executed) — arms unchanged; legibility never becomes a refusal " ++
          "(W1-T1020)").toList
  | _, _ =>
      ("verdict is a PARTIAL PASS (some, not all, executable criteria executed) — arms unchanged; " ++
        "legibility never becomes a refusal (W1-T1020)").toList

/-- `bands` is the table of the call, or the one of the default policy. -/
def decideAutoMergeArm (bands : List ArmCalibrationBandRow) (verdict : ArmVerdict)
    (override : Option CappedOverride) (irreversible : Bool) : ArmDecision :=
  if irreversible then
    { arm := false
      reason := ("diff classified IRREVERSIBLE (W1-T919: the fleet gates on irreversibility, not " ++
        "outwardness) — auto-merge refuses regardless of the review verdict; an operator must arm " ++
        "this manually").toList }
  else if verdict.state ≠ .success then
    { arm := false, reason := "remudero-review is not success".toList }
  else if !verdict.capped then
    if verdict.partiallyExecuted then
      applyCalibrationBand { arm := true, reason := partialPassReason verdict }
        "keyword-floor".toList bands
    else
      applyCalibrationBand { arm := true, reason := "verdict is a full PASS".toList }
        "full-pass".toList bands
  else if verdict.planOnly then
    { arm := true
      reason := ("plan-only PR — structurally has no executable proof (filing/amending a task, not " ++
        "implementing one); gated deterministically by lint-plan + the plan-PR emitter + plan-index " ++
        "checks, not by proof execution (W1-T205 carve-out on the W1-T229 floor)").toList }
  else
    match override with
    | some o =>
        { arm := true
          reason := "CAPPED override granted by ".toList ++ o.by_ ++ ": ".toList ++ o.reason }
    | none =>
        { arm := false
          reason := ("CAPPED verdict (zero proofs executed) — refuses to arm auto-merge without " ++
            "executed proof or an explicit, ledgered operator override").toList }

def decideArmFromLedgerVerdict (bands : List ArmCalibrationBandRow)
    (prior : Option PriorReviewVerdict) (headSha : Text) (override : Option CappedOverride) :
    ArmDecision :=
  match prior with
  | none =>
      { arm := false
        reason := ("no ledgered review.posted verdict found for this task — arming withheld " ++
          "(W1-T230, fail closed)").toList }
  | some prior =>
      if prior.headSha ≠ headSha then
        { arm := false
          reason := "ledgered verdict is for a different head (".toList ++
            Text.takeUnits 7 prior.headSha ++ "), not the current head (".toList ++
            Text.takeUnits 7 headSha ++
            ") — a push after the verdict was posted must not arm the new head (W1-T230)".toList }
      else
        let decision := decideAutoMergeArm bands
          { state := prior.state
            capped := prior.capped
            planOnly := prior.planOnly
            partiallyExecuted := prior.partiallyExecuted.getD false }
          override false
        if prior.cappedFieldAbsent then
          { decision with
            reason := decision.reason ++ (" [the ledgered verdict carried no 'capped' field (a line " ++
              "older than W1-T185); treated as NOT capped]").toList }
        else decision

/-- The decision on a ledger for a pull request and its head. -/
def armFromLedger (bands : List ArmCalibrationBandRow) (lines : List Row) (taskId prUrl headSha : Text) :
    ArmDecision :=
  decideArmFromLedgerVerdict bands (priorReviewVerdictFromLedger lines taskId (some prUrl)) headSha
    (cappedOverrideFromLedger lines taskId headSha (some prUrl))

/-! ### Last one wins -/

section Last

variable {α β : Type*} {f : α → Option β}

theorem lastOf_concat (l : List α) (a : α) :
    lastOf f (l ++ [a]) = match f a with | some b => some b | none => lastOf f l := by
  simp only [lastOf, List.foldl_append, List.foldl_cons, List.foldl_nil]

/-- The element that won, with what follows it. -/
theorem lastOf_eq_some {l : List α} {b : β} (h : lastOf f l = some b) :
    ∃ pre a post, l = pre ++ a :: post ∧ f a = some b ∧ ∀ x ∈ post, f x = none := by
  induction l using List.reverseRecOn with
  | nil => cases h
  | append_singleton l a ih =>
      rw [lastOf_concat] at h
      cases ha : f a with
      | some b' =>
          rw [ha, Option.some.injEq] at h
          exact ⟨l, a, [], rfl, by rw [ha, h], by simp⟩
      | none =>
          rw [ha] at h
          obtain ⟨pre, x, post, rfl, hx, hpost⟩ := ih h
          refine ⟨pre, x, post ++ [a], by simp, hx, ?_⟩
          intro y hy
          rcases List.mem_append.mp hy with hy | hy
          · exact hpost y hy
          · rw [List.mem_singleton.mp hy, ha]

end Last

/-! ### What arms -/

section Decision

variable {bands : List ArmCalibrationBandRow}

/-- The arming rule: a success, and an override or a plan-only verdict where it is capped. -/
theorem arm_of_rule {verdict : ArmVerdict} {override : Option CappedOverride} {irreversible : Bool}
    (h : (decideAutoMergeArm bands verdict override irreversible).arm = true) :
    verdict.state = .success ∧
      (verdict.capped = true → verdict.planOnly = false → override.isSome) := by
  unfold decideAutoMergeArm at h
  split_ifs at h with hirr hstate hcapped hpartial hplan
  · exact ⟨not_not.mp hstate, fun hc => by simp [hc] at hcapped⟩
  · exact ⟨not_not.mp hstate, fun hc => by simp [hc] at hcapped⟩
  · exact ⟨not_not.mp hstate, fun _ hp => by simp [hp] at hplan⟩
  · refine ⟨not_not.mp hstate, fun _ _ => ?_⟩
    cases override with
    | some o => rfl
    | none => cases h

theorem arm_of_verdict {prior : Option PriorReviewVerdict} {headSha : Text}
    {override : Option CappedOverride}
    (h : (decideArmFromLedgerVerdict bands prior headSha override).arm = true) :
    ∃ p, prior = some p ∧ p.headSha = headSha ∧ p.state = .success ∧
      (p.capped = true → p.planOnly = false → override.isSome) := by
  unfold decideArmFromLedgerVerdict at h
  cases prior with
  | none => cases h
  | some p =>
      simp only at h
      split_ifs at h with hsha habsent
      · obtain ⟨hstate, hover⟩ := arm_of_rule h
        exact ⟨p, rfl, not_not.mp hsha, hstate, hover⟩
      · obtain ⟨hstate, hover⟩ := arm_of_rule h
        exact ⟨p, rfl, not_not.mp hsha, hstate, hover⟩

end Decision

/-! ### The latest verdict -/

/-- A row that posts a verdict on the pull request. -/
structure PostsVerdict (taskId prUrl : Text) (line : Row) : Prop where
  step : line.str "step" = some "review.posted".toList
  names : reviewRowNamesPr line (some taskId) prUrl = true
  head : (line.str "head_sha").isSome
  state : line.str "state" = some "success".toList ∨ line.str "state" = some "failure".toList

section Rows

variable {taskId prUrl headSha : Text} {line : Row}

theorem stateOf_isSome : (stateOf line).isSome ↔
    line.str "state" = some "success".toList ∨ line.str "state" = some "failure".toList := by
  unfold stateOf
  split_ifs with h₁ h₂
  · exact iff_of_true rfl (.inl h₁)
  · exact iff_of_true rfl (.inr h₂)
  · exact iff_of_false (by simp) (not_or.mpr ⟨h₁, h₂⟩)

theorem stateOf_success : stateOf line = some .success ↔ line.str "state" = some "success".toList := by
  unfold stateOf
  split_ifs with h₁ h₂
  · exact iff_of_true rfl h₁
  · exact iff_of_false (by simp) h₁
  · exact iff_of_false (by simp) h₁

/-- The scan reads a verdict off a row exactly if the row posts one. -/
theorem verdictOf_isSome : (verdictOf taskId (some prUrl) line).isSome ↔ PostsVerdict taskId prUrl line := by
  unfold verdictOf rowIsFor
  constructor
  · intro h
    split_ifs at h with hstep hnames
    · cases h
    · cases h
    · split at h
      next sha state hsha hstate =>
        exact ⟨not_not.mp hstep, by simpa using hnames, by simp [hsha],
          stateOf_isSome.mp (by simp [hstate])⟩
      next => cases h
  · rintro ⟨hstep, hnames, hhead, hstate⟩
    obtain ⟨sha, hsha⟩ := Option.isSome_iff_exists.mp hhead
    obtain ⟨state, hstate⟩ := Option.isSome_iff_exists.mp (stateOf_isSome.mpr hstate)
    simp [hstep, hnames, hsha, hstate]

/-- What a verdict says of its row. -/
theorem verdictOf_eq {p : PriorReviewVerdict} (h : verdictOf taskId (some prUrl) line = some p) :
    line.str "head_sha" = some p.headSha ∧ stateOf line = some p.state ∧
      p.capped = (line.bool "capped").getD false ∧ p.planOnly = (line.bool "plan_only").getD false := by
  unfold verdictOf at h
  split_ifs at h with hstep hnames
  split at h
  next sha state hsha hstate =>
    obtain rfl := Option.some.inj h
    exact ⟨hsha, hstate, rfl, rfl⟩
  next => cases h

/-- An override is read off a row that grants one for this head. -/
theorem overrideOf_eq {o : CappedOverride} (h : overrideOf taskId headSha (some prUrl) line = some o) :
    line.str "step" = some "automerge.capped_override_granted".toList ∧
      reviewRowNamesPr line (some taskId) prUrl = true ∧ line.str "head_sha" = some headSha := by
  unfold overrideOf rowIsFor at h
  split_ifs at h with hstep hnames
  split at h
  next who reason sha _ _ hsha =>
    split_ifs at h with heq
    exact ⟨not_not.mp hstep, by simpa using hnames, by rw [hsha, heq]⟩
  next => cases h

end Rows

/-- For every ledger, task, pull request and head: the decision arms only if the last row that posts
a verdict on the pull request is a success for this head and, where it is capped and not plan-only,
an override for this head was granted; after a further row with a failure, or for another head, it
does not arm. -/
theorem arms_on_latest_verdict (bands : List ArmCalibrationBandRow) (lines : List Row)
    (taskId prUrl headSha : Text) :
    ((armFromLedger bands lines taskId prUrl headSha).arm = true →
      ∃ pre row post, lines = pre ++ row :: post ∧ PostsVerdict taskId prUrl row ∧
        (∀ r ∈ post, ¬ PostsVerdict taskId prUrl r) ∧
        row.str "head_sha" = some headSha ∧ row.str "state" = some "success".toList ∧
        (row.bool "capped" = some true → row.bool "plan_only" ≠ some true →
          ∃ g ∈ lines, g.str "step" = some "automerge.capped_override_granted".toList ∧
            reviewRowNamesPr g (some taskId) prUrl = true ∧ g.str "head_sha" = some headSha)) ∧
    ∀ row, PostsVerdict taskId prUrl row →
      (row.str "state" = some "failure".toList ∨ row.str "head_sha" ≠ some headSha) →
      (armFromLedger bands (lines ++ [row]) taskId prUrl headSha).arm = false := by
  constructor
  · intro harm
    obtain ⟨p, hp, hsha, hstate, hover⟩ := arm_of_verdict harm
    obtain ⟨pre, row, post, hlines, hrow, hpost⟩ := lastOf_eq_some hp
    obtain ⟨hhead, hst, hcap, hplan⟩ := verdictOf_eq hrow
    refine ⟨pre, row, post, hlines, verdictOf_isSome.mp (by simp [hrow]), ?_, by rw [hhead, hsha],
      stateOf_success.mp (by rw [hst, hstate]), ?_⟩
    · intro r hr hposts
      have hsome := verdictOf_isSome.mpr hposts
      rw [hpost r hr] at hsome
      cases hsome
    · intro hc hp'
      have hplanFalse : p.planOnly = false := by
        rw [hplan]
        cases hb : row.bool "plan_only" with
        | none => rfl
        | some b =>
            cases b with
            | false => rfl
            | true => exact absurd hb hp'
      obtain ⟨o, ho⟩ := Option.isSome_iff_exists.mp (hover (by rw [hcap, hc]; rfl) hplanFalse)
      obtain ⟨pre', g, post', hlines', hg, -⟩ := lastOf_eq_some ho
      refine ⟨g, ?_, overrideOf_eq hg⟩
      rw [hlines']
      simp
  · intro row hposts hbad
    obtain ⟨p, hp⟩ := Option.isSome_iff_exists.mp (verdictOf_isSome.mpr hposts)
    obtain ⟨hhead, hst, -⟩ := verdictOf_eq hp
    have hprior : priorReviewVerdictFromLedger (lines ++ [row]) taskId (some prUrl) = some p := by
      rw [priorReviewVerdictFromLedger, lastOf_concat, hp]
    by_contra harm
    obtain ⟨p', hp', hsha, hstate, -⟩ := arm_of_verdict (Bool.not_eq_false _ ▸ harm)
    rw [hprior, Option.some.injEq] at hp'
    subst hp'
    rcases hbad with hfail | hother
    · have hsucc := stateOf_success.mp (by rw [hst, hstate])
      rw [hfail] at hsucc
      cases hsucc
    · exact hother (by rw [hhead, hsha])

/-! A capped success with an override, and the same with a later failure. -/

def cappedRow : Row :=
  [("step".toList, .str "review.posted".toList), ("pr_url".toList, .str "pr/1".toList),
    ("head_sha".toList, .str "abc".toList), ("state".toList, .str "success".toList),
    ("capped".toList, .bool true)]

def grantedRow : Row :=
  [("step".toList, .str "automerge.capped_override_granted".toList),
    ("pr_url".toList, .str "pr/1".toList), ("by".toList, .str "op".toList),
    ("reason".toList, .str "ok".toList), ("head_sha".toList, .str "abc".toList)]

def failedRow : Row :=
  [("step".toList, .str "review.posted".toList), ("pr_url".toList, .str "pr/1".toList),
    ("head_sha".toList, .str "abc".toList), ("state".toList, .str "failure".toList)]

theorem arms_on_latest_verdict_capped :
    (armFromLedger [] [cappedRow, grantedRow] "W1-T1".toList "pr/1".toList "abc".toList).arm = true ∧
      (∃ g ∈ [cappedRow, grantedRow],
        g.str "step" = some "automerge.capped_override_granted".toList ∧
          reviewRowNamesPr g (some "W1-T1".toList) "pr/1".toList = true ∧
          g.str "head_sha" = some "abc".toList) ∧
      (armFromLedger [] ([cappedRow, grantedRow] ++ [failedRow]) "W1-T1".toList "pr/1".toList
        "abc".toList).arm = false := by
  have harm : (armFromLedger [] [cappedRow, grantedRow] "W1-T1".toList "pr/1".toList
      "abc".toList).arm = true := by decide +kernel
  have hlaw := arms_on_latest_verdict [] [cappedRow, grantedRow] "W1-T1".toList "pr/1".toList "abc".toList
  refine ⟨harm, ?_, hlaw.2 failedRow ⟨by decide +kernel, by decide +kernel, by decide +kernel,
    by decide +kernel⟩ (by decide +kernel)⟩
  obtain ⟨pre, row, post, hlines, hposts, -, -, -, hgrant⟩ := hlaw.1 harm
  have hrow : row = cappedRow := by
    have hmem : row ∈ [cappedRow, grantedRow] := by
      rw [hlines]
      simp
    rcases List.mem_cons.mp hmem with rfl | hmem
    · rfl
    · rw [List.mem_singleton.mp hmem] at hposts
      exact absurd hposts.step (by decide +kernel)
  subst hrow
  exact hgrant (by decide +kernel) (by decide +kernel)

end Remudero.Review
