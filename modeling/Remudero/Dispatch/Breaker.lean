import Remudero.Dispatch.Streak
import Remudero.Lib.Transition

/-! # The dispatch breaker

`evaluateDispatchBreakerDetailed` of `lib/status.ts`: a task is dispatched only while its streak is
below a bound.  The streak is recounted from the live ledger, which loses its oldest rows at a
rotation, so the process remembers the count and the newest reset of its last evaluation: a count
that is lower now, with no new pull request and the same reset, is `indeterminate`.

One process evaluates, dispatches right after a `clear`, and rows are appended and rotated away in
any order.  The field `made` is for the statements only: the dispatches since the last reset.

A drop can go unseen.  The remembered count is that of the last evaluation, so a dispatch made
after it covers the loss of one older start; a reset row that is rotated away together with starts
after it changes the newest reset and so explains the drop; a run that is silent for the liveness
bound is left out until its verdict comes; and rows out of time order are counted on the wrong side
of a reset.  `dispatches_bounded` is the main result: in every run that meets `Covered` the
dispatches since the last reset never exceed the bound. -/

namespace Remudero.Dispatch

open Remudero.Lib

inductive BreakerState where
  | tripped
  | clear
  | indeterminate
deriving DecidableEq

/-- The memory of a process, by task. -/
structure DispatchBreakerCache where
  lastCounts : Text → Option ℚ
  lastResets : Text → Option (Option Text)

structure DispatchBreakerDetail where
  state : BreakerState
  freshCount : ℕ
  excludedDispatches : ℕ
  excludedByReason : List (Text × ℕ)
  maxDispatches : ℕ
  priorCount : Option ℚ
  hasNewOwnedPr : Bool

variable (dateParse : Text → Option ℤ)

/-- The evaluation of one task, without a second opinion from the open pull requests. -/
def evaluateDispatchBreakerDetailed (lines : List Row) (taskId : Text)
    (cache : DispatchBreakerCache) (maxDispatches : ℕ) :
    DispatchBreakerDetail × DispatchBreakerCache :=
  let tally := dispatchStreakTally dateParse lines taskId
  let priorCount := (cache.lastCounts taskId).or (seedCountFromCircuitBreak lines taskId)
  let hasNewOwnedPr := (lastPrOpened lines taskId).isSome
  let detail (state : BreakerState) : DispatchBreakerDetail :=
    ⟨state, tally.count, tally.excludedDispatches, tally.excludedByReason, maxDispatches,
      priorCount, hasNewOwnedPr⟩
  let resetSincePrior := (cache.lastResets taskId).any fun reset => reset != tally.lastReset
  if priorCount.any (fun prior => decide ((tally.count + tally.excludedDispatches : ℚ) < prior)) &&
      !hasNewOwnedPr && !resetSincePrior then
    (detail .indeterminate,
      { cache with lastCounts := Function.update cache.lastCounts taskId priorCount })
  else
    (detail (if maxDispatches ≤ tally.count then .tripped else .clear),
      { lastCounts := Function.update cache.lastCounts taskId (some tally.count)
        lastResets := Function.update cache.lastResets taskId (some tally.lastReset) })

/-! ### Runs -/

/-- The live ledger and the process's memory. -/
structure BreakerRun where
  lines : List Row
  cache : DispatchBreakerCache
  made : List Row
  cleared : Bool

inductive BreakerEvent where
  | evaluate
  | dispatch (line : Row)
  | append (line : Row)
  | rotate (lines : List Row)

namespace BreakerRun

variable (taskId : Text) (maxDispatches : ℕ)

/-- A start of the task under a run id and an event of its own. -/
def IsDispatch (s : BreakerRun) (line : Row) : Prop :=
  line.taskId = some taskId ∧ line.isRunStart = true ∧
    ∃ runId, line.runId = some runId ∧ ∀ r ∈ taskRows s.lines taskId,
      r.runId ≠ some runId ∧ ∀ k, line.replayKey = some k → r.replayKey ≠ some k

/-- Any other row; the verdict of a dispatched run is one that counts. -/
def IsOther (s : BreakerRun) (line : Row) : Prop :=
  line.taskId = some taskId → line.isRunStart = false ∧
    (line.hasStep "verdict" = true → ∀ r ∈ s.made, line.runId = r.runId → streakRefusal line = none)

/-- One step.  Only a `clear` directly before allows a dispatch; a rotation removes the oldest rows
of the task and any rows of other tasks. -/
def Step (s : BreakerRun) : BreakerEvent → BreakerRun → Prop
  | .evaluate, t =>
      let result := evaluateDispatchBreakerDetailed dateParse s.lines taskId s.cache maxDispatches
      t = { s with cache := result.2, cleared := decide (result.1.state = .clear) }
  | .dispatch line, t =>
      s.cleared = true ∧ s.IsDispatch taskId line ∧
        t = { s with lines := s.lines ++ [line], made := s.made ++ [line], cleared := false }
  | .append line, t =>
      s.IsOther taskId line ∧
        t = { s with
          lines := s.lines ++ [line]
          made := if line.taskId == some taskId && isDispatchStreakReset line then [] else s.made
          cleared := false }
  | .rotate lines, t =>
      taskRows lines taskId <:+ taskRows s.lines taskId ∧
        t = { s with lines := lines, cleared := false }

/-- When the evaluation sees every dispatch, and the loss of one: the task's rows are in time order
and no dispatched run counts as orphaned; a rotation that leaves fewer starts than were dispatched
leaves fewer than the remembered count, and no reset row is remembered. -/
def Covered (s : BreakerRun) : BreakerEvent → Prop
  | .evaluate =>
      RowsInOrder s.lines taskId ∧
        ∀ r ∈ s.made, ∀ runId, r.runId = some runId →
          runId ∉ orphanedRunIds dateParse s.lines taskId
  | .rotate lines =>
      (taskRows lines taskId).countP Row.isRunStart < s.made.length →
        (∃ prior, s.cache.lastCounts taskId = some prior ∧
          ((taskRows lines taskId).countP Row.isRunStart : ℚ) < prior) ∧
        ∀ key, s.cache.lastResets taskId ≠ some (some key)
  | _ => True

/-! ### The invariant -/

/-- The rows of the task end with the dispatches since the last reset. -/
def Intact (s : BreakerRun) : Prop :=
  ∃ before after, taskRows s.lines taskId = before ++ after ∧
    (∀ line ∈ after, isDispatchStreakReset line = false) ∧
    after.filter Row.isRunStart = s.made ∧
    (after.Pairwise fun a b =>
      b.isRunStart = true → ∀ k, b.replayKey = some k → a.replayKey ≠ some k) ∧
    ∀ a ∈ before, ∀ b ∈ after, b.isRunStart = true → ∀ k, b.replayKey = some k → a.replayKey ≠ some k

/-- Starts are missing and every evaluation will see it. -/
structure Caught (s : BreakerRun) : Prop where
  fewer : ∃ prior, s.cache.lastCounts taskId = some prior ∧
    ((taskRows s.lines taskId).countP Row.isRunStart : ℚ) < prior
  noKey : ∀ key, s.cache.lastResets taskId ≠ some (some key)
  noReset : ∀ line ∈ taskRows s.lines taskId, isDispatchStreakReset line = false

structure Inv (s : BreakerRun) : Prop where
  bounded : s.made.length ≤ maxDispatches
  state : s.Intact taskId ∨ s.Caught taskId
  verdicts : ∀ r ∈ s.made, ∀ line ∈ taskRows s.lines taskId, line.hasStep "verdict" = true →
    line.runId = r.runId → streakRefusal line = none
  clear : s.cleared = true → s.Intact taskId ∧ s.made.length < maxDispatches

variable {dateParse taskId maxDispatches} {s t : BreakerRun}

/-! ### Appending rows -/

theorem taskRows_append (lines : List Row) (line : Row) :
    taskRows (lines ++ [line]) taskId =
      taskRows lines taskId ++ if line.taskId = some taskId then [line] else [] := by
  unfold taskRows
  rw [List.filter_append]
  congr 1
  by_cases h : line.taskId = some taskId <;> simp [h]

/-- A row of the task that is neither a start nor a reset. -/
theorem Intact.append_plain {line : Row} {cache : DispatchBreakerCache} {cleared : Bool}
    (h : s.Intact taskId) (hstart : line.taskId = some taskId → line.isRunStart = false)
    (hreset : line.taskId = some taskId → isDispatchStreakReset line = false) :
    (BreakerRun.mk (s.lines ++ [line]) cache s.made cleared).Intact taskId := by
  obtain ⟨before, after, hrows, hnone, hmade, hown, hnew⟩ := h
  unfold Intact
  simp only [taskRows_append, hrows]
  split_ifs with htask
  · refine ⟨before, after ++ [line], by simp, ?_, ?_, ?_, ?_⟩
    · intro l hl
      rcases List.mem_append.mp hl with hl | hl
      · exact hnone l hl
      · rw [List.mem_singleton.mp hl]
        exact hreset htask
    · simp [List.filter_append, hmade, hstart htask]
    · rw [List.pairwise_append]
      refine ⟨hown, List.pairwise_singleton _ _, ?_⟩
      intro a _ b hb hbs
      rw [List.mem_singleton.mp hb, hstart htask] at hbs
      cases hbs
    · intro a ha b hb hbs
      rcases List.mem_append.mp hb with hb | hb
      · exact hnew a ha b hb hbs
      · rw [List.mem_singleton.mp hb, hstart htask] at hbs
        cases hbs
  · exact ⟨before, after, by simp, hnone, hmade, hown, hnew⟩

theorem intact_reset {line : Row} {cache : DispatchBreakerCache} {cleared : Bool}
    (lines : List Row) : (BreakerRun.mk (lines ++ [line]) cache [] cleared).Intact taskId :=
  ⟨taskRows (lines ++ [line]) taskId, [], by simp, by simp, rfl, .nil, by simp⟩

theorem Intact.dispatch {line : Row} {cache : DispatchBreakerCache} {cleared : Bool}
    (h : s.Intact taskId) (hd : s.IsDispatch taskId line) :
    (BreakerRun.mk (s.lines ++ [line]) cache (s.made ++ [line]) cleared).Intact taskId := by
  obtain ⟨before, after, hrows, hnone, hmade, hown, hnew⟩ := h
  obtain ⟨htask, hstart, runId, -, hfresh⟩ := hd
  rw [hrows] at hfresh
  refine ⟨before, after ++ [line], ?_, ?_, ?_, ?_, ?_⟩
  · simp only [taskRows_append, hrows, htask, if_true, List.append_assoc]
  · intro l hl
    rcases List.mem_append.mp hl with hl | hl
    · exact hnone l hl
    · rw [List.mem_singleton.mp hl]
      exact not_reset_of_runStart hstart
  · simp [List.filter_append, hmade, hstart]
  · rw [List.pairwise_append]
    refine ⟨hown, List.pairwise_singleton _ _, ?_⟩
    intro a ha b hb _ k hk
    rw [List.mem_singleton.mp hb] at hk
    exact (hfresh a (List.mem_append_right before ha)).2 k hk
  · intro a ha b hb hbs k hk
    rcases List.mem_append.mp hb with hb | hb
    · exact hnew a ha b hb hbs k hk
    · rw [List.mem_singleton.mp hb] at hk
      exact (hfresh a (List.mem_append_left after ha)).2 k hk

/-! ### Evaluating -/

/-- A refusal of a run is a verdict row of the run. -/
theorem refusalByRunId_none {rows : List Row} {runId : Text}
    (h : ∀ line ∈ rows, line.hasStep "verdict" = true → line.runId = some runId →
      streakRefusal line = none) : refusalByRunId rows runId = none := by
  unfold refusalByRunId
  rw [List.findSome?_eq_none_iff]
  intro line hline
  split_ifs with hv
  · rw [Bool.and_eq_true, beq_iff_eq] at hv
    exact h line (List.mem_reverse.mp hline) hv.1 hv.2
  · rfl

/-- With every dispatch in the ledger the count is at least their number. -/
theorem Intact.le_count (h : s.Intact taskId)
    (hverdicts : ∀ r ∈ s.made, ∀ line ∈ taskRows s.lines taskId, line.hasStep "verdict" = true →
      line.runId = r.runId → streakRefusal line = none)
    (hcov : s.Covered dateParse taskId .evaluate) :
    s.made.length ≤ (dispatchStreakTally dateParse s.lines taskId).count := by
  obtain ⟨before, after, hrows, hnone, hmade, hown, hnew⟩ := h
  rw [← hmade, ← List.countP_eq_length_filter]
  refine le_count_of_own dateParse hcov.1 hrows hnone hown hnew ?_
  intro line hline hstart
  have hmem : line ∈ s.made := hmade ▸ List.mem_filter.mpr ⟨hline, hstart⟩
  unfold exclusion
  cases hid : line.runId with
  | none => rfl
  | some runId =>
      have hrefusal : refusalByRunId (taskRowsInTimeOrder (indexedTaskRows s.lines taskId) taskId)
          runId = none := by
        refine refusalByRunId_none ?_
        intro l hl hv hr
        rw [taskRowsInTimeOrder_eq hcov.1] at hl
        exact hverdicts line hmem l ((firstSeen_sublist _ _ _).subset hl) hv (hr.trans hid.symm)
      have horphan := hcov.2 line hmem runId hid
      rw [Option.bind_some, hrefusal, Option.none_or, if_neg]
      rwa [List.contains_iff_mem]

theorem lastPrOpened_none {lines : List Row}
    (h : ∀ line ∈ taskRows lines taskId, isDispatchStreakReset line = false) :
    lastPrOpened lines taskId = none := by
  unfold lastPrOpened
  have hrows : ∀ line ∈ indexedTaskRows lines taskId,
      (line.hasStep "pr.opened" && line.taskId == some taskId) = false := by
    intro line hline
    by_contra hc
    simp only [Bool.not_eq_false, Bool.and_eq_true] at hc
    have hmem : line ∈ taskRows lines taskId :=
      List.mem_filter.mpr ⟨(List.mem_filter.mp hline).1, hc.2⟩
    have hno := h line hmem
    rw [isDispatchStreakReset, hc.1, Bool.true_or, Bool.true_or, Bool.true_or] at hno
    cases hno
  generalize indexedTaskRows lines taskId = rows at hrows
  induction rows with
  | nil => rfl
  | cons line rows ih =>
      rw [List.foldl_cons, if_neg (Bool.eq_false_iff.mp (hrows line List.mem_cons_self))]
      exact ih fun l hl => hrows l (List.mem_cons_of_mem line hl)

/-- Without a reset row the tally names no reset. -/
theorem tally_lastReset_none {lines : List Row}
    (h : ∀ line ∈ taskRows lines taskId, isDispatchStreakReset line = false) :
    (dispatchStreakTally dateParse lines taskId).lastReset = none := by
  have hrows : ∀ line ∈ taskRowsInTimeOrder (indexedTaskRows lines taskId) taskId,
      isDispatchStreakReset line = false := by
    intro line hline
    refine h line ?_
    unfold taskRowsInTimeOrder at hline
    rw [filter_indexedTaskRows] at hline
    dsimp only at hline
    split_ifs at hline
    · exact (firstSeen_sublist _ _ _).subset hline
    · exact (firstSeen_sublist _ _ _).subset hline
    · exact (firstSeen_sublist _ _ _).subset ((List.mergeSort_perm _ _).subset hline)
  have hfold : ∀ (rows l : List Row) (orphans : List Text) (tally : DispatchStreakTally),
      (∀ line ∈ l, isDispatchStreakReset line = false) →
        (l.foldl (tallyRow rows orphans) tally).lastReset = tally.lastReset := by
    intro rows l orphans
    induction l with
    | nil => exact fun _ _ => rfl
    | cons line l ih =>
        intro tally hl
        rw [List.foldl_cons, ih _ fun b hb => hl b (List.mem_cons_of_mem line hb)]
        unfold tallyRow
        rw [if_neg (by simp [hl line List.mem_cons_self])]
        split
        · split <;> rfl
        · rfl
  exact hfold _ _ _ _ hrows

variable (dateParse maxDispatches) in
/-- A loss that is caught is seen by the evaluation, which leaves the memory as it is. -/
theorem Caught.evaluate (h : s.Caught taskId) :
    (evaluateDispatchBreakerDetailed dateParse s.lines taskId s.cache maxDispatches).1.state =
        .indeterminate ∧
      (evaluateDispatchBreakerDetailed dateParse s.lines taskId s.cache maxDispatches).2 = s.cache := by
  obtain ⟨prior, hprior, hfewer⟩ := h.fewer
  have hle := tally_le dateParse s.lines taskId
  have hlt : ((dispatchStreakTally dateParse s.lines taskId).count +
      (dispatchStreakTally dateParse s.lines taskId).excludedDispatches : ℚ) < prior := by
    refine lt_of_le_of_lt ?_ hfewer
    exact_mod_cast hle
  have hpr := lastPrOpened_none h.noReset
  have hreset : ((s.cache.lastResets taskId).any fun reset =>
      reset != (dispatchStreakTally dateParse s.lines taskId).lastReset) = false := by
    rw [tally_lastReset_none h.noReset]
    cases hkey : s.cache.lastResets taskId with
    | none => rfl
    | some reset =>
        cases reset with
        | none => rfl
        | some key => exact absurd hkey (h.noKey key)
  have hupdate : Function.update s.cache.lastCounts taskId (some prior) = s.cache.lastCounts := by
    rw [← hprior, Function.update_eq_self]
  unfold evaluateDispatchBreakerDetailed
  simp [hprior, hlt, hpr, hreset, hupdate]

/-- A `clear` means that the count is below the bound. -/
theorem count_lt_of_clear {lines : List Row} {cache : DispatchBreakerCache}
    (h : (evaluateDispatchBreakerDetailed dateParse lines taskId cache maxDispatches).1.state =
      .clear) : (dispatchStreakTally dateParse lines taskId).count < maxDispatches := by
  unfold evaluateDispatchBreakerDetailed at h
  dsimp only at h
  split at h
  · cases h
  · by_contra hle
    rw [if_pos (Nat.le_of_not_lt hle)] at h
    cases h

/-! ### Rotating -/

theorem suffix_append_cases {α : Type} {l a b : List α} (h : l <:+ a ++ b) :
    (∃ c, c <:+ a ∧ l = c ++ b) ∨ l <:+ b := by
  obtain ⟨pre, hpre⟩ := h
  rcases List.append_eq_append_iff.mp hpre with ⟨c, ha, hl⟩ | ⟨c, -, hb⟩
  · exact .inl ⟨c, ⟨pre, ha.symm⟩, hl⟩
  · exact .inr ⟨c, hb.symm⟩

/-- A rotation leaves the dispatches in the ledger, or fewer starts than there were. -/
theorem Intact.rotate {lines : List Row} {cache : DispatchBreakerCache} {cleared : Bool}
    (h : s.Intact taskId) (hsuffix : taskRows lines taskId <:+ taskRows s.lines taskId) :
    (BreakerRun.mk lines cache s.made cleared).Intact taskId ∨
      ((taskRows lines taskId).countP Row.isRunStart < s.made.length ∧
        ∀ line ∈ taskRows lines taskId, isDispatchStreakReset line = false) := by
  obtain ⟨before, after, hrows, hnone, hmade, hown, hnew⟩ := h
  rw [hrows] at hsuffix
  rcases suffix_append_cases hsuffix with ⟨c, hc, heq⟩ | hsub
  · exact .inl ⟨c, after, heq, hnone, hmade, hown, fun a ha => hnew a (hc.subset ha)⟩
  · have hstarts : (taskRows lines taskId).filter Row.isRunStart <:+ s.made := by
      rw [← hmade]
      exact hsub.filter Row.isRunStart
    by_cases hlen : (taskRows lines taskId).countP Row.isRunStart < s.made.length
    · exact .inr ⟨hlen, fun line hline => hnone line (hsub.subset hline)⟩
    · rw [List.countP_eq_length_filter] at hlen
      have hall := hstarts.eq_of_length (by have := hstarts.length_le; omega)
      exact .inl ⟨[], taskRows lines taskId, rfl, fun line hline => hnone line (hsub.subset hline),
        hall, hown.sublist hsub.sublist, by simp⟩

/-! ### The invariant along a run -/

theorem Inv.evaluate (h : s.Inv taskId maxDispatches) (hcov : s.Covered dateParse taskId .evaluate) :
    (BreakerRun.mk s.lines
      (evaluateDispatchBreakerDetailed dateParse s.lines taskId s.cache maxDispatches).2 s.made
      (decide ((evaluateDispatchBreakerDetailed dateParse s.lines taskId s.cache
        maxDispatches).1.state = .clear))).Inv taskId maxDispatches := by
  rcases h.state with hin | hcaught
  · have hsame : ∀ cache cleared, (BreakerRun.mk s.lines cache s.made cleared).Intact taskId :=
      fun _ _ => hin
    refine ⟨h.bounded, .inl (hsame _ _), h.verdicts, fun hclear => ⟨hsame _ _, ?_⟩⟩
    have hlt := count_lt_of_clear (of_decide_eq_true hclear)
    exact lt_of_le_of_lt (hin.le_count h.verdicts hcov) hlt
  · obtain ⟨hstate, hcache⟩ := hcaught.evaluate dateParse maxDispatches
    rw [hstate, hcache]
    exact ⟨h.bounded, .inr ⟨hcaught.fewer, hcaught.noKey, hcaught.noReset⟩, h.verdicts,
      fun hclear => by cases hclear⟩

theorem Inv.dispatch {line : Row} (h : s.Inv taskId maxDispatches) (hclear : s.cleared = true)
    (hd : s.IsDispatch taskId line) :
    (BreakerRun.mk (s.lines ++ [line]) s.cache (s.made ++ [line]) false).Inv taskId maxDispatches := by
  obtain ⟨hin, hlt⟩ := h.clear hclear
  refine ⟨?_, .inl (hin.dispatch hd), ?_, fun hc => by cases hc⟩
  · rw [List.length_append, List.length_singleton]
    exact hlt
  · obtain ⟨htask, hstart, runId, hid, hfresh⟩ := hd
    intro r hr l hl hv hrun
    simp only [taskRows_append, htask, if_true] at hl
    have hnotVerdict : line.hasStep "verdict" = false := by
      have hstep : line.step = some "run.start".toList := by
        simpa [Row.isRunStart, Row.hasStep] using hstart
      rw [Row.hasStep, hstep]
      decide
    rcases List.mem_append.mp hl with hl | hl
    · rcases List.mem_append.mp hr with hr | hr
      · exact h.verdicts r hr l hl hv hrun
      · rw [List.mem_singleton.mp hr, hid] at hrun
        exact absurd hrun (hfresh l hl).1
    · rw [List.mem_singleton.mp hl, hnotVerdict] at hv
      cases hv

theorem Inv.append {line : Row} (h : s.Inv taskId maxDispatches) (ho : s.IsOther taskId line) :
    (BreakerRun.mk (s.lines ++ [line]) s.cache
      (if line.taskId == some taskId && isDispatchStreakReset line then [] else s.made)
      false).Inv taskId maxDispatches := by
  split_ifs with hreset
  · refine ⟨Nat.zero_le _, .inl (intact_reset s.lines), ?_, fun hc => by cases hc⟩
    intro r hr
    cases hr
  · have hplain : line.taskId = some taskId → isDispatchStreakReset line = false := by
      intro htask
      simpa [htask] using hreset
    refine ⟨h.bounded, ?_, ?_, fun hc => by cases hc⟩
    · rcases h.state with hin | hcaught
      · exact .inl (hin.append_plain (fun htask => (ho htask).1) hplain)
      · refine .inr ⟨?_, hcaught.noKey, ?_⟩
        · obtain ⟨prior, hprior, hlt⟩ := hcaught.fewer
          refine ⟨prior, hprior, ?_⟩
          simp only [taskRows_append, List.countP_append]
          split_ifs with htask
          · simpa [(ho htask).1] using hlt
          · simpa using hlt
        · intro l hl
          simp only [taskRows_append] at hl
          split_ifs at hl with htask
          · rcases List.mem_append.mp hl with hl | hl
            · exact hcaught.noReset l hl
            · rw [List.mem_singleton.mp hl]
              exact hplain htask
          · exact hcaught.noReset l (by simpa using hl)
    · intro r hr l hl hv hrun
      simp only [taskRows_append] at hl
      split_ifs at hl with htask
      · rcases List.mem_append.mp hl with hl | hl
        · exact h.verdicts r hr l hl hv hrun
        · rw [List.mem_singleton.mp hl] at hv hrun ⊢
          exact (ho htask).2 hv r hr hrun
      · exact h.verdicts r hr l (by simpa using hl) hv hrun

theorem Inv.rotate {lines : List Row} (h : s.Inv taskId maxDispatches)
    (hsuffix : taskRows lines taskId <:+ taskRows s.lines taskId)
    (hcov : s.Covered dateParse taskId (.rotate lines)) :
    (BreakerRun.mk lines s.cache s.made false).Inv taskId maxDispatches := by
  refine ⟨h.bounded, ?_, ?_, fun hc => by cases hc⟩
  · rcases h.state with hin | hcaught
    · rcases hin.rotate hsuffix with hkept | ⟨hfewer, hno⟩
      · exact .inl hkept
      · obtain ⟨hprior, hkey⟩ := hcov hfewer
        exact .inr ⟨hprior, hkey, hno⟩
    · obtain ⟨prior, hprior, hlt⟩ := hcaught.fewer
      refine .inr ⟨⟨prior, hprior, lt_of_le_of_lt ?_ hlt⟩, hcaught.noKey,
        fun line hline => hcaught.noReset line (hsuffix.subset hline)⟩
      have hle : (taskRows lines taskId).countP Row.isRunStart ≤
          (taskRows s.lines taskId).countP Row.isRunStart := hsuffix.sublist.countP_le
      exact_mod_cast hle
  · intro r hr l hl
    exact h.verdicts r hr l (hsuffix.subset hl)

theorem inv_step {e : BreakerEvent} (h : s.Inv taskId maxDispatches)
    (hstep : Guarded (Step dateParse taskId maxDispatches) (Covered dateParse taskId) s e t) :
    t.Inv taskId maxDispatches := by
  obtain ⟨hstep, hcov⟩ := hstep
  cases e with
  | evaluate =>
      obtain rfl := hstep
      exact h.evaluate hcov
  | dispatch line =>
      obtain ⟨hclear, hd, rfl⟩ := hstep
      exact h.dispatch hclear hd
  | append line =>
      obtain ⟨ho, rfl⟩ := hstep
      exact h.append ho
  | rotate lines =>
      obtain ⟨hsuffix, rfl⟩ := hstep
      exact h.rotate hsuffix hcov

/-- From any ledger and any memory, a run that meets `Covered` dispatches the task at most
`maxDispatches` times after its last reset. -/
theorem dispatches_bounded {events : List BreakerEvent} (hmade : s.made = [])
    (hclear : s.cleared = false)
    (hr : Run (Guarded (Step dateParse taskId maxDispatches) (Covered dateParse taskId)) s events t) :
    t.made.length ≤ maxDispatches := by
  have hinv : s.Inv taskId maxDispatches := by
    refine ⟨by simp [hmade], .inl ⟨taskRows s.lines taskId, [], by simp, by simp, hmade.symm, .nil,
      by simp⟩, by simp [hmade], by simp [hclear]⟩
  exact (hr.invariant (fun _ _ _ h hstep => inv_step h hstep) hinv).bounded

/-! ### Two runs -/

/-- The time of every row below, and its value. -/
def noon : Text := "2026-10-27T10:00:00.000Z".toList

def noonParse (t : Text) : Option ℤ := if t = noon then some 1793095200000 else none

def startRow (runId : Text) : Row :=
  { taskId := some ['T'], step := some "run.start".toList, runId := some runId, ts := some noon }

def failedRow (runId : Text) : Row :=
  { taskId := some ['T'], step := some "verdict".toList, runId := some runId, ts := some noon
    verdict := some "failed".toList }

/-- A process that starts with an empty ledger. -/
def fresh : BreakerRun := ⟨[], ⟨fun _ => none, fun _ => none⟩, [], false⟩

/-- Evaluated after its dispatch, the task is not dispatched again when its rows are rotated away. -/
theorem loss_seen_after_evaluation :
    ∃ events t, Run (Guarded (Step noonParse ['T'] 2) (Covered noonParse ['T'])) fresh events t ∧
      t.lines = [] ∧ t.made.length = 1 ∧ t.cleared = false ∧ t.made.length ≤ 2 := by
  have hr : ∃ t, Run (Guarded (Step noonParse ['T'] 2) (Covered noonParse ['T'])) fresh
      [.evaluate, .dispatch (startRow ['a']), .append (failedRow ['a']), .evaluate, .rotate [],
        .evaluate] t ∧ t.lines = [] ∧ t.made.length = 1 ∧ t.cleared = false := by
    refine ⟨_, .cons ⟨rfl, ?_⟩ (.cons ⟨⟨?_, ?_, rfl⟩, trivial⟩ (.cons ⟨⟨?_, rfl⟩, trivial⟩
      (.cons ⟨rfl, ?_⟩ (.cons ⟨⟨List.nil_suffix, rfl⟩, ?_⟩ (.single ⟨rfl, ?_⟩))))), rfl, ?_, ?_⟩
    · exact ⟨fun _ => List.Pairwise.nil, fun r hr => by cases hr⟩
    · decide +kernel
    · exact ⟨rfl, by decide +kernel, ['a'], rfl, fun r hr => by cases hr⟩
    · exact fun _ => ⟨by decide +kernel, fun _ _ _ _ => by decide +kernel⟩
    · refine ⟨fun _ => by decide +kernel, ?_⟩
      intro r _ runId _
      rw [show orphanedRunIds noonParse _ _ = [] by decide +kernel]
      exact List.not_mem_nil
    · intro _
      refine ⟨⟨1, by decide +kernel, by decide +kernel⟩, ?_⟩
      intro key hkey
      cases hkey.symm.trans (show _ = some none by decide +kernel)
    · refine ⟨fun _ => List.Pairwise.nil, ?_⟩
      intro r _ runId _
      rw [show orphanedRunIds noonParse _ _ = [] by decide +kernel]
      exact List.not_mem_nil
    · decide +kernel
    · decide +kernel
  obtain ⟨t, hr, hlines, hmade, hcleared⟩ := hr
  exact ⟨_, t, hr, hlines, hmade, hcleared, dispatches_bounded rfl rfl hr⟩

/-- Rotated away before the next evaluation, the only start is forgotten. -/
theorem dispatched_past_the_bound :
    ∃ events t, Run (Step noonParse ['T'] 1) fresh events t ∧ ¬ t.made.length ≤ 1 := by
  refine ⟨[.evaluate, .dispatch (startRow ['a']), .append (failedRow ['a']), .rotate [], .evaluate,
    .dispatch (startRow ['b'])], _, .cons rfl (.cons ⟨?_, ?_, rfl⟩ (.cons ⟨?_, rfl⟩
      (.cons ⟨?_, rfl⟩ (.cons rfl (.single ⟨?_, ?_, rfl⟩))))), ?_⟩
  · decide +kernel
  · exact ⟨rfl, by decide +kernel, ['a'], rfl, fun r hr => by cases hr⟩
  · exact fun _ => ⟨by decide +kernel, fun _ _ _ _ => by decide +kernel⟩
  · exact List.nil_suffix
  · decide +kernel
  · exact ⟨rfl, by decide +kernel, ['b'], rfl, fun r hr => by cases hr⟩
  · decide +kernel

end BreakerRun

end Remudero.Dispatch
