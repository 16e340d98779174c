import Remudero.Dispatch.Streak

/-! # The dispatch streak of a union

A union of ledgers has a task's rows in any order, with a copy for every archive that kept a row, and
between them the rows of other tasks.  `taskRowsInTimeOrder` and `provenOrphanRunIds` collapse the
copies by the text `run_id|step|ts`, which does not say where one field ends and the next begins.

`tally_eq_of_keys` is the main result: two readings of the same rows give the same tally when no
two different rows have one key.  `key_collision_changes_tally` has two rows with one key, of which
the first one read hides the other. -/

namespace Remudero.Dispatch

open Remudero.Lib

/-! ### The newest time -/

section latest

variable (dateParse : Text → Option ℤ)

/-- The times a list of rows has. -/
def timesOf (lines : List Row) : List ℤ := lines.filterMap fun line => line.ts.bind dateParse

theorem timesOf_cons_none {line : Row} (lines : List Row) (h : line.ts.bind dateParse = none) :
    timesOf dateParse (line :: lines) = timesOf dateParse lines := by
  simp [timesOf, h]

theorem timesOf_cons_some {line : Row} {ms : ℤ} (lines : List Row) (h : line.ts.bind dateParse = some ms) :
    timesOf dateParse (line :: lines) = ms :: timesOf dateParse lines := by
  simp [timesOf, h]

theorem latest_foldl_some (lines : List Row) (m : ℤ) :
    lines.foldl (fun latest line =>
      match line.ts.bind dateParse with
      | none => latest
      | some ms => some (latest.elim ms (max ms))) (some m) = some ((timesOf dateParse lines).foldl max m) := by
  induction lines generalizing m with
  | nil => rfl
  | cons line lines ih =>
      rw [List.foldl_cons]
      cases hts : line.ts.bind dateParse with
      | none =>
          rw [timesOf_cons_none dateParse lines hts]
          exact ih m
      | some ms =>
          rw [timesOf_cons_some dateParse lines hts, List.foldl_cons, max_comm m ms]
          exact ih (max ms m)

theorem latestLedgerTsMs_eq (lines : List Row) :
    latestLedgerTsMs dateParse lines = (timesOf dateParse lines).max? := by
  unfold latestLedgerTsMs
  induction lines with
  | nil => rfl
  | cons line lines ih =>
      rw [List.foldl_cons]
      cases hts : line.ts.bind dateParse with
      | none =>
          rw [timesOf_cons_none dateParse lines hts]
          exact ih
      | some ms =>
          rw [timesOf_cons_some dateParse lines hts, List.max?_cons']
          exact latest_foldl_some dateParse lines ms

variable {dateParse}

theorem max?_congr {xs ys : List ℤ} (h : ∀ m, m ∈ xs ↔ m ∈ ys) : xs.max? = ys.max? := by
  apply Option.ext
  intro m
  rw [List.max?_eq_some_iff, List.max?_eq_some_iff]
  simp only [h]

theorem max?_append (xs ys : List ℤ) : (xs ++ ys).max? = xs.max?.merge max ys.max? := by
  cases xs with
  | nil => simp
  | cons x xs =>
      rw [List.cons_append, List.max?_cons', List.max?_cons', List.foldl_append]
      cases ys with
      | nil => simp
      | cons y ys =>
          rw [List.foldl_max, List.max?_cons']
          simp [Option.merge]

theorem mem_timesOf_iff {lines : List Row} {m : ℤ} :
    m ∈ timesOf dateParse lines ↔ ∃ line ∈ lines, line.ts.bind dateParse = some m :=
  List.mem_filterMap

/-- The rows of other tasks. -/
def otherRows (lines : List Row) (taskId : Text) : List Row :=
  lines.filter fun line => !(line.taskId == some taskId)

/-- The newest time is the newer one of the task's own rows and of the other rows. -/
theorem latestLedgerTsMs_split (lines : List Row) (taskId : Text) :
    latestLedgerTsMs dateParse lines =
      (timesOf dateParse (taskRows lines taskId) ++ timesOf dateParse (otherRows lines taskId)).max? := by
  rw [latestLedgerTsMs_eq]
  apply max?_congr
  intro m
  rw [List.mem_append, mem_timesOf_iff, mem_timesOf_iff, mem_timesOf_iff]
  constructor
  · rintro ⟨line, hline, hm⟩
    by_cases hown : (line.taskId == some taskId) = true
    · exact Or.inl ⟨line, List.mem_filter.mpr ⟨hline, hown⟩, hm⟩
    · exact Or.inr ⟨line, List.mem_filter.mpr ⟨hline, by simpa using hown⟩, hm⟩
  · rintro (⟨line, hline, hm⟩ | ⟨line, hline, hm⟩)
    · exact ⟨line, List.mem_of_mem_filter hline, hm⟩
    · exact ⟨line, List.mem_of_mem_filter hline, hm⟩

theorem latestLedgerTsMs_congr {lines₁ lines₂ : List Row} {taskId : Text}
    (hown : ∀ line, line ∈ taskRows lines₁ taskId ↔ line ∈ taskRows lines₂ taskId)
    (hother : latestLedgerTsMs dateParse (otherRows lines₁ taskId) =
      latestLedgerTsMs dateParse (otherRows lines₂ taskId)) :
    latestLedgerTsMs dateParse lines₁ = latestLedgerTsMs dateParse lines₂ := by
  have htimes : (timesOf dateParse (taskRows lines₁ taskId)).max? = (timesOf dateParse (taskRows lines₂ taskId)).max? := by
    apply max?_congr
    intro m
    simp only [mem_timesOf_iff, hown]
  rw [latestLedgerTsMs_eq, latestLedgerTsMs_eq] at hother
  rw [latestLedgerTsMs_split lines₁ taskId, latestLedgerTsMs_split lines₂ taskId, max?_append, max?_append,
    htimes, hother]

end latest

/-! ### One reading and another -/

/-- Two lists have the same rows of a task, each at least once. -/
def SameTaskRows (taskId : Text) (lines₁ lines₂ : List Row) : Prop :=
  ∀ line, line ∈ taskRows lines₁ taskId ↔ line ∈ taskRows lines₂ taskId

/-- Every row of the task has a time and a run, and no two different ones have the same time. -/
def DatedApart (taskId : Text) (lines : List Row) : Prop :=
  (∀ line ∈ taskRows lines taskId, line.ts.isSome ∧ line.runId.isSome) ∧
    ∀ a ∈ taskRows lines taskId, ∀ b ∈ taskRows lines taskId, a.ts = b.ts → a = b

/-- No two different rows of the task have one key. -/
def KeysApart (taskId : Text) (lines : List Row) : Prop :=
  ∀ a ∈ taskRows lines taskId, ∀ b ∈ taskRows lines taskId, a.eventKey = b.eventKey → a = b

section readings

variable {dateParse : Text → Option ℤ} {taskId : Text} {lines lines₁ lines₂ : List Row}

theorem pairwise_of_inTimeOrder {l : List Row} (h : inTimeOrder l = true) :
    l.Pairwise fun a b => a.stamp ≤ b.stamp := by
  rw [← List.isChain_iff_pairwise]
  induction l with
  | nil => exact List.IsChain.nil
  | cons a l ih =>
      cases l with
      | nil => exact List.IsChain.singleton a
      | cons b l =>
          rw [inTimeOrder, Bool.and_eq_true, decide_eq_true_eq] at h
          exact List.IsChain.cons_cons h.1 (ih h.2)

theorem pairwise_mergeSort_ts (l : List Row) :
    (l.mergeSort fun a b => decide (a.stamp ≤ b.stamp)).Pairwise fun a b => a.stamp ≤ b.stamp := by
  have h : (l.mergeSort fun a b => decide (a.stamp ≤ b.stamp)).Pairwise
      fun a b => decide (a.stamp ≤ b.stamp) = true := by
    apply List.pairwise_mergeSort
    · intro a b c hab hbc
      rw [decide_eq_true_eq] at *
      exact le_trans hab hbc
    · intro a b
      rw [Bool.or_eq_true, decide_eq_true_eq, decide_eq_true_eq]
      exact le_total _ _
  simpa using h

/-- With a time in every row, the rows come out in time order. -/
theorem taskRowsInTimeOrder_sorted (h : ∀ line ∈ taskRows lines taskId, line.ts.isSome) :
    (taskRowsInTimeOrder (indexedTaskRows lines taskId) taskId).Perm
        (firstSeen Row.replayKey [] (taskRows lines taskId)) ∧
      (taskRowsInTimeOrder (indexedTaskRows lines taskId) taskId).Pairwise
        fun a b => a.stamp ≤ b.stamp := by
  unfold taskRowsInTimeOrder
  rw [filter_indexedTaskRows]
  have hall : (firstSeen Row.replayKey [] (taskRows lines taskId)).all (fun line => line.ts.isSome) = true := by
    rw [List.all_eq_true]
    intro line hline
    exact h line ((firstSeen_sublist _ _ _).subset hline)
  simp only [hall, Bool.not_true, Bool.false_eq_true, if_false]
  split_ifs with hordered
  · exact ⟨List.Perm.refl _, pairwise_of_inTimeOrder hordered⟩
  · exact ⟨List.mergeSort_perm _ _, pairwise_mergeSort_ts _⟩

theorem replayKey_eq {line : Row} (hts : line.ts.isSome) (hrun : line.runId.isSome) :
    line.replayKey = some line.eventKey := by
  simp [Row.replayKey, hts, hrun]

theorem taskRowsInTimeOrder_congr (hsame : SameTaskRows taskId lines₁ lines₂) (hdated : DatedApart taskId lines₁)
    (hkeys : KeysApart taskId lines₁) :
    taskRowsInTimeOrder (indexedTaskRows lines₁ taskId) taskId =
      taskRowsInTimeOrder (indexedTaskRows lines₂ taskId) taskId := by
  have hdated₂ : ∀ line ∈ taskRows lines₂ taskId, line.ts.isSome :=
    fun line hline => (hdated.1 line ((hsame line).mpr hline)).1
  obtain ⟨hperm₁, hsorted₁⟩ := taskRowsInTimeOrder_sorted fun line hline => (hdated.1 line hline).1
  obtain ⟨hperm₂, hsorted₂⟩ := taskRowsInTimeOrder_sorted hdated₂
  have hkey : ∀ line ∈ taskRows lines₁ taskId, line.replayKey = some line.eventKey :=
    fun line hline => replayKey_eq (hdated.1 line hline).1 (hdated.1 line hline).2
  have hseen : (firstSeen Row.replayKey [] (taskRows lines₁ taskId)).Perm
      (firstSeen Row.replayKey [] (taskRows lines₂ taskId)) := by
    apply firstSeen_perm Row.replayKey hsame
    · intro line hline
      rw [hkey line hline]
      rfl
    · intro a ha b hb heq
      rw [hkey a ha, hkey b hb, Option.some.injEq] at heq
      exact hkeys a ha b hb heq
  have hmem₁ : ∀ line ∈ taskRowsInTimeOrder (indexedTaskRows lines₁ taskId) taskId, line ∈ taskRows lines₁ taskId :=
    fun line hline => (firstSeen_sublist _ _ _).subset (hperm₁.mem_iff.mp hline)
  have hmem₂ : ∀ line ∈ taskRowsInTimeOrder (indexedTaskRows lines₂ taskId) taskId, line ∈ taskRows lines₁ taskId :=
    fun line hline => (hsame line).mpr ((firstSeen_sublist _ _ _).subset (hperm₂.mem_iff.mp hline))
  -- rows with the same time are the same row, so the order is strict and the sorted list unique
  refine List.Perm.eq_of_pairwise ?_ hsorted₁ hsorted₂ (hperm₁.trans (hseen.trans hperm₂.symm))
  intro a b ha hb hab hba
  obtain ⟨t, ht⟩ := Option.isSome_iff_exists.mp (hdated.1 a (hmem₁ a ha)).1
  obtain ⟨u, hu⟩ := Option.isSome_iff_exists.mp (hdated.1 b (hmem₂ b hb)).1
  have hstamp : a.stamp = b.stamp := le_antisymm hab hba
  rw [Row.stamp, Row.stamp, ht, hu, Option.getD_some, Option.getD_some] at hstamp
  apply hdated.2 a (hmem₁ a ha) b (hmem₂ b hb)
  rw [ht, hu, Text.utf16_injective hstamp]

theorem provenOrphanRunIds_congr {rows₁ rows₂ : List Row} {nowMs : Option ℤ} {livenessBoundMs : ℤ}
    (hsame : ∀ line, line.taskId = some taskId → (line ∈ rows₁ ↔ line ∈ rows₂))
    (hkeys : ∀ a ∈ rows₁, ∀ b ∈ rows₁, a.taskId = some taskId → b.taskId = some taskId →
      a.eventKey = b.eventKey → a = b) (runId : Text) :
    (provenOrphanRunIds dateParse rows₁ nowMs livenessBoundMs taskId).contains runId =
      (provenOrphanRunIds dateParse rows₂ nowMs livenessBoundMs taskId).contains runId := by
  unfold provenOrphanRunIds
  dsimp only
  set own := fun line : Row => line.taskId == some taskId && line.runId.isSome &&
    !line.step.any fun step => monitorWrittenRunSteps.contains step with hown
  have htask : ∀ line, own line = true → line.taskId = some taskId := by
    intro line h
    simp only [hown, Bool.and_eq_true, beq_iff_eq] at h
    exact h.1.1
  have hperm : (firstSeen (fun line => some line.eventKey) [] (rows₁.filter own)).Perm
      (firstSeen (fun line => some line.eventKey) [] (rows₂.filter own)) := by
    apply firstSeen_perm
    · intro line
      rw [List.mem_filter, List.mem_filter]
      constructor
      · rintro ⟨hline, h⟩
        exact ⟨(hsame line (htask line h)).mp hline, h⟩
      · rintro ⟨hline, h⟩
        exact ⟨(hsame line (htask line h)).mpr hline, h⟩
    · simp
    · intro a ha b hb heq
      rw [List.mem_filter] at ha hb
      exact hkeys a ha.1 b hb.1 (htask a ha.2) (htask b hb.2) (Option.some.inj heq)
  cases nowMs with
  | none => rfl
  | some now =>
      rw [Bool.eq_iff_iff, List.contains_iff_mem, List.contains_iff_mem]
      have hcount : ∀ line : Row,
          (firstSeen (fun line => some line.eventKey) [] (rows₁.filter own)).countP (fun l => l.runId == line.runId) =
            (firstSeen (fun line => some line.eventKey) [] (rows₂.filter own)).countP (fun l => l.runId == line.runId) :=
        fun line => hperm.countP_eq _
      simp only [hcount]
      exact (hperm.filterMap _).mem_iff

theorem mem_indexedTaskRows_iff {line : Row} (h : line.taskId = some taskId) :
    line ∈ indexedTaskRows lines taskId ↔ line ∈ taskRows lines taskId := by
  simp [indexedTaskRows, taskRows, h]

theorem orphanedRunIds_congr (hsame : SameTaskRows taskId lines₁ lines₂) (hkeys : KeysApart taskId lines₁)
    (hnow : latestLedgerTsMs dateParse lines₁ = latestLedgerTsMs dateParse lines₂) (runId : Text) :
    (orphanedRunIds dateParse lines₁ taskId).contains runId = (orphanedRunIds dateParse lines₂ taskId).contains runId := by
  unfold orphanedRunIds
  rw [hnow]
  apply provenOrphanRunIds_congr
  · intro line h
    rw [mem_indexedTaskRows_iff h, mem_indexedTaskRows_iff h, hsame line]
  · intro a ha b hb hta htb heq
    exact hkeys a ((mem_indexedTaskRows_iff hta).mp ha) b ((mem_indexedTaskRows_iff htb).mp hb) heq

theorem tallyRow_congr {rows : List Row} {orphans₁ orphans₂ : List Text}
    (h : ∀ runId, orphans₁.contains runId = orphans₂.contains runId) :
    tallyRow rows orphans₁ = tallyRow rows orphans₂ := by
  have hexclusion : exclusion rows orphans₁ = exclusion rows orphans₂ := by
    funext line
    simp only [exclusion, h]
  funext tally line
  simp only [tallyRow, hexclusion]

end readings

/-- The tally does not depend on how the union is read, as long as no two different rows of the task
have one key. -/
theorem tally_eq_of_keys (dateParse : Text → Option ℤ) (taskId : Text) (lines₁ lines₂ : List Row)
    (hsame : SameTaskRows taskId lines₁ lines₂) (hdated : DatedApart taskId lines₁)
    (hnewest : latestLedgerTsMs dateParse (otherRows lines₁ taskId) =
      latestLedgerTsMs dateParse (otherRows lines₂ taskId))
    (hkeys : KeysApart taskId lines₁) :
    dispatchStreakTally dateParse lines₁ taskId = dispatchStreakTally dateParse lines₂ taskId := by
  have hnow := latestLedgerTsMs_congr hsame hnewest
  have hrows := taskRowsInTimeOrder_congr hsame hdated hkeys
  unfold dispatchStreakTally
  dsimp only
  rw [hrows, tallyRow_congr (orphanedRunIds_congr hsame hkeys hnow)]

/-- A pull request of run `r`, and a start of run `s` after it. -/
def openedRow : Row :=
  { taskId := some "T".toList, runId := some "r".toList, step := some "pr.opened".toList,
    ts := some "2026-01-01T00:00:00.000Z".toList }

def restartRow : Row :=
  { taskId := some "T".toList, runId := some "s".toList, step := some "run.start".toList,
    ts := some "2026-01-01T00:01:00.000Z".toList }

/-- The rows in the other order, and with a copy: the start counts, as it was after the pull request. -/
theorem tally_eq_of_keys_copies :
    dispatchStreakTally (fun _ => none) [restartRow, openedRow, restartRow] "T".toList =
        dispatchStreakTally (fun _ => none) [openedRow, restartRow] "T".toList ∧
      (dispatchStreakTally (fun _ => none) [openedRow, restartRow] "T".toList).count = 1 := by
  refine ⟨?_, by decide +kernel⟩
  apply tally_eq_of_keys
  · have hcopies : taskRows [restartRow, openedRow, restartRow] "T".toList = [restartRow, openedRow, restartRow] := by
      decide +kernel
    have hrows : taskRows [openedRow, restartRow] "T".toList = [openedRow, restartRow] := by decide +kernel
    intro line
    rw [hcopies, hrows]
    simp only [List.mem_cons, List.not_mem_nil, or_false]
    constructor
    · rintro (h | h | h)
      · exact .inr h
      · exact .inl h
      · exact .inr h
    · rintro (h | h)
      · exact .inr (.inl h)
      · exact .inl h
  · unfold DatedApart
    decide +kernel
  · decide +kernel
  · unfold KeysApart
    decide +kernel

/-- A start of run `a` at `b|c`. -/
def startRow : Row :=
  { taskId := some "T".toList, runId := some "a".toList, step := some "run.start".toList, ts := some "b|c".toList }

/-- A step `b` of run `a|run.start` at `c`. -/
def stepRow : Row :=
  { taskId := some "T".toList, runId := some "a|run.start".toList, step := some "b".toList, ts := some "c".toList }

/-- Two rows at different times with one key: the first one read hides the other, and the start is
counted in one reading only. -/
theorem key_collision_changes_tally :
    ¬ ∀ (dateParse : Text → Option ℤ) (taskId : Text) (lines₁ lines₂ : List Row),
      SameTaskRows taskId lines₁ lines₂ → DatedApart taskId lines₁ →
      latestLedgerTsMs dateParse (otherRows lines₁ taskId) = latestLedgerTsMs dateParse (otherRows lines₂ taskId) →
      (dispatchStreakTally dateParse lines₁ taskId).count = (dispatchStreakTally dateParse lines₂ taskId).count := by
  intro h
  have hsame : SameTaskRows "T".toList [startRow, stepRow] [stepRow, startRow] := by
    unfold SameTaskRows
    simp [taskRows, startRow, stepRow, or_comm]
  have hdated : DatedApart "T".toList [startRow, stepRow] := by
    unfold DatedApart
    decide +kernel
  have hcount := h (fun _ => none) "T".toList [startRow, stepRow] [stepRow, startRow] hsame hdated rfl
  have hcounts : (dispatchStreakTally (fun _ => none) [startRow, stepRow] "T".toList).count = 1 ∧
      (dispatchStreakTally (fun _ => none) [stepRow, startRow] "T".toList).count = 0 := by
    decide +kernel
  omega

end Remudero.Dispatch
