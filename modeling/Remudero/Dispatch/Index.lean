import Remudero.Dispatch.Breaker

/-! # The ledger index

`buildLedgerIndex` of `lib/status.ts` and the readers that take the index: `lastPrOpened`,
`latestManualCompletion`, `seedCountFromCircuitBreak`, `orphanedRunIds` and `dispatchStreakTally`.  An index is
built over one array of rows, in one pass; a reader that is handed the index of its own array scans the bucket of
the task instead of the whole array, and takes the newest time from the index.

An array has an identity, which is what a reader compares, and contents, which its owner may change in place.  An
owner that does so registers a new generation with every change, and the index that is held for an array is served
while the generation is the same.

`index_transparent` is the main result: after any run of changes and builds, the index that `buildLedgerIndex`
returns for an array gives every reader the answer of the whole array.  `dispatchStreakTally_eq`,
`seedCountFromCircuitBreak_eq` and `lastPrOpened_eq` connect the readers here with the ones of `Dispatch.Streak`, which the
breaker uses. -/

namespace Remudero.Dispatch.Index

open Remudero.Lib

/-- A row with what the index and the manual completions read of it besides. -/
structure LedgerRow extends Row where
  actor : Option Text := none
  /-- `plan_only === true` -/
  planOnly : Bool := false
  headSha : Option Text := none
deriving DecidableEq

/-- An array of rows. -/
structure LedgerArray where
  /-- what `===` compares -/
  id : ℕ
  rows : List LedgerRow

structure LedgerIndex where
  /-- the array the index was built over -/
  rows : ℕ
  byTask : Record Text (List LedgerRow)
  byStep : Record Text (List LedgerRow)
  planOnlyFilingPrUrls : List Text
  planOnlyReviewedHeads : Record Text (List Text)
  latestTsMs : Option ℤ

/-! ### Building an index -/

def pushIndexed (buckets : Record Text (List LedgerRow)) (key : Text) (row : LedgerRow) : Record Text (List LedgerRow) :=
  match buckets.get? key with
  | some bucket => buckets.set key (bucket ++ [row])
  | none => buckets.set key [row]

/-- `add` of a `Set`. -/
def addTo (set : List Text) (t : Text) : List Text := if t ∈ set then set else set ++ [t]

def planOnlyReviewMarkerStep : String := "review.plan_only_reviewed"

def indexStep (index : LedgerIndex) (row : LedgerRow) : LedgerIndex :=
  match row.step with
  | none => index
  | some step =>
      { index with
        byStep := pushIndexed index.byStep step row
        planOnlyFilingPrUrls :=
          match row.prUrl with
          | some url =>
              if row.hasStep "pr.opened" && row.planOnly then addTo index.planOnlyFilingPrUrls url
              else index.planOnlyFilingPrUrls
          | none => index.planOnlyFilingPrUrls
        planOnlyReviewedHeads :=
          match row.prUrl, row.headSha with
          | some url, some head =>
              if (row.hasStep "review.posted" || row.hasStep planOnlyReviewMarkerStep) && row.planOnly then
                index.planOnlyReviewedHeads.set url (addTo ((index.planOnlyReviewedHeads.get? url).getD []) head)
              else index.planOnlyReviewedHeads
          | _, _ => index.planOnlyReviewedHeads }

/-- The buckets of the two ids of a row; a row with one id in both fields is in the bucket once. -/
def pushTask (byTask : Record Text (List LedgerRow)) (row : LedgerRow) : Option Text → Option Text → Record Text (List LedgerRow)
  | none, none => byTask
  | none, some task => pushIndexed byTask task row
  | some taskId, none => pushIndexed byTask taskId row
  | some taskId, some task =>
      if task ≠ taskId then pushIndexed (pushIndexed byTask taskId row) task row else pushIndexed byTask taskId row

def indexTask (index : LedgerIndex) (row : LedgerRow) : LedgerIndex :=
  { index with byTask := pushTask index.byTask row row.taskId row.task }

variable (dateParse : Text → Option ℤ)

def indexTime (index : LedgerIndex) (row : LedgerRow) : LedgerIndex :=
  match row.ts.bind dateParse with
  | none => index
  | some ms => if index.latestTsMs.all (· < ms) then { index with latestTsMs := some ms } else index

def indexRow (index : LedgerIndex) (row : LedgerRow) : LedgerIndex :=
  indexTime dateParse (indexTask (indexStep index row) row) row

def emptyIndex (array : ℕ) : LedgerIndex := ⟨array, ∅, ∅, [], ∅, none⟩

def computeLedgerIndex (lines : LedgerArray) : LedgerIndex :=
  lines.rows.foldl (indexRow dateParse) (emptyIndex lines.id)

/-! ### Readers -/

/-- The index, when it was built over these rows. -/
def usable (lines : LedgerArray) (index : Option LedgerIndex) : Option LedgerIndex :=
  index.filter fun i => i.rows = lines.id

def indexedTaskRows (lines : LedgerArray) (taskId : Text) (index : Option LedgerIndex) : List LedgerRow :=
  match usable lines index with
  | none => lines.rows
  | some i => (i.byTask.get? taskId).getD []

def lastPrOpened (lines : LedgerArray) (taskId : Text) (index : Option LedgerIndex) : Option Text :=
  (indexedTaskRows lines taskId index).foldl (fun url line =>
    if line.hasStep "pr.opened" && line.taskId == some taskId then line.prUrl.or url else url) none

structure ManualCompletion where
  actor : Text
  ts : Text
  prUrl : Option Text
deriving DecidableEq

/-- The completion a row asserts, with an actor and a time that are not empty. -/
def manualCompletion (line : LedgerRow) : Option ManualCompletion :=
  match line.actor, line.ts with
  | some actor, some ts =>
      if line.hasStep "manual.completed" && !actor.isEmpty && !ts.isEmpty then
        some ⟨actor, ts, line.prUrl.filter fun url => !url.isEmpty⟩
      else none
  | _, _ => none

def latestManualCompletion (lines : LedgerArray) (taskId : Text) (index : Option LedgerIndex) : Option ManualCompletion :=
  (indexedTaskRows lines taskId index).foldl (fun found line =>
    if line.taskId == some taskId then (manualCompletion line).or found else found) none

def seedCountFromCircuitBreak (lines : LedgerArray) (taskId : Text) (index : Option LedgerIndex) : Option ℚ :=
  (indexedTaskRows lines taskId index).foldl (fun seed line =>
    if line.taskId == some taskId && isDispatchStreakReset line.toRow then none
    else if line.hasStep "dispatch.circuit_broken" && line.task == some taskId then
      (line.freshCount.filter fun fresh => decide (0 ≤ fresh)).or seed
    else seed) none

structure OrphanDetectionOpts where
  nowMs : Option ℤ := none
  livenessBoundMs : Option ℤ := none

def toRows (rows : List LedgerRow) : List Row := rows.map LedgerRow.toRow

def orphanedRunIds (lines : LedgerArray) (taskId : Text) (index : Option LedgerIndex) (opts : OrphanDetectionOpts) :
    List Text :=
  let nowMs := opts.nowMs.or (match usable lines index with
    | some i => i.latestTsMs
    | none => latestLedgerTsMs dateParse (toRows lines.rows))
  provenOrphanRunIds dateParse (toRows (indexedTaskRows lines taskId index)) nowMs
    (opts.livenessBoundMs.getD defaultLivenessBoundMs) taskId

def dispatchStreakTally (lines : LedgerArray) (taskId : Text) (index : Option LedgerIndex) (opts : OrphanDetectionOpts) :
    DispatchStreakTally :=
  let rows := taskRowsInTimeOrder (toRows (indexedTaskRows lines taskId index)) taskId
  rows.foldl (tallyRow rows (orphanedRunIds dateParse lines taskId index opts)) {}

/-! ### What an index holds -/

/-- The row names the task in one of its fields. -/
def names (taskId : Text) (row : LedgerRow) : Bool := row.taskId == some taskId || row.task == some taskId

theorem getD_pushIndexed (buckets : Record Text (List LedgerRow)) (key k : Text) (row : LedgerRow) :
    ((pushIndexed buckets key row).get? k).getD [] = (buckets.get? k).getD [] ++ if key = k then [row] else [] := by
  unfold pushIndexed
  by_cases hk : key = k
  · subst hk
    split
    next bucket h => simp [h, Record.get?_set_self]
    next h => simp [h, Record.get?_set_self]
  · have hne : k ≠ key := fun h => hk h.symm
    split
    · simp [Record.get?_set_of_ne _ _ hne, hk]
    · simp [Record.get?_set_of_ne _ _ hne, hk]

@[simp] theorem indexStep_byTask (index : LedgerIndex) (row : LedgerRow) : (indexStep index row).byTask = index.byTask := by
  unfold indexStep
  split <;> rfl

@[simp] theorem indexStep_latestTsMs (index : LedgerIndex) (row : LedgerRow) :
    (indexStep index row).latestTsMs = index.latestTsMs := by
  unfold indexStep
  split <;> rfl

@[simp] theorem indexStep_rows (index : LedgerIndex) (row : LedgerRow) : (indexStep index row).rows = index.rows := by
  unfold indexStep
  split <;> rfl

@[simp] theorem indexTime_byTask (index : LedgerIndex) (row : LedgerRow) :
    (indexTime dateParse index row).byTask = index.byTask := by
  unfold indexTime
  split
  · rfl
  · split <;> rfl

@[simp] theorem indexTime_rows (index : LedgerIndex) (row : LedgerRow) :
    (indexTime dateParse index row).rows = index.rows := by
  unfold indexTime
  split
  · rfl
  · split <;> rfl

/-- A row is added once to the bucket of each task it names. -/
theorem getD_pushTask (byTask : Record Text (List LedgerRow)) (row : LedgerRow) (id task : Option Text) (k : Text) :
    ((pushTask byTask row id task).get? k).getD [] =
      (byTask.get? k).getD [] ++ if id == some k || task == some k then [row] else [] := by
  cases id with
  | none =>
      cases task with
      | none => simp [pushTask]
      | some task => simp [pushTask, getD_pushIndexed]
  | some id =>
      cases task with
      | none => simp [pushTask, getD_pushIndexed]
      | some task =>
          by_cases hsame : task = id
          · subst hsame
            simp [pushTask, getD_pushIndexed]
          · rw [pushTask, if_pos hsame, getD_pushIndexed, getD_pushIndexed]
            by_cases h : id = k
            · have hother : task ≠ k := fun h' => hsame (h'.trans h.symm)
              simp [h, hother]
            · simp [h]

theorem bucket_indexTask (index : LedgerIndex) (row : LedgerRow) (taskId : Text) :
    ((indexTask index row).byTask.get? taskId).getD [] =
      (index.byTask.get? taskId).getD [] ++ if names taskId row then [row] else [] :=
  getD_pushTask index.byTask row row.taskId row.task taskId

/-- The bucket of a task: the rows that name it, in order. -/
theorem bucket_computeLedgerIndex (lines : LedgerArray) (taskId : Text) :
    ((computeLedgerIndex dateParse lines).byTask.get? taskId).getD [] = lines.rows.filter (names taskId) := by
  unfold computeLedgerIndex
  induction lines.rows using List.reverseRecOn with
  | nil => rfl
  | append_singleton rows row ih =>
      rw [List.foldl_append, List.foldl_cons, List.foldl_nil, indexRow, indexTime_byTask, bucket_indexTask,
        indexStep_byTask, ih, List.filter_append]
      congr 1
      simp [List.filter_cons]

theorem rows_computeLedgerIndex (lines : LedgerArray) : (computeLedgerIndex dateParse lines).rows = lines.id := by
  unfold computeLedgerIndex
  induction lines.rows using List.reverseRecOn with
  | nil => rfl
  | append_singleton rows row ih =>
      rw [List.foldl_append, List.foldl_cons, List.foldl_nil, indexRow, indexTime_rows]
      simpa [indexTask] using ih

/-- The newest time of the index is that of the rows. -/
theorem latestTsMs_computeLedgerIndex (lines : LedgerArray) :
    (computeLedgerIndex dateParse lines).latestTsMs = latestLedgerTsMs dateParse (toRows lines.rows) := by
  unfold computeLedgerIndex latestLedgerTsMs toRows
  induction lines.rows using List.reverseRecOn with
  | nil => rfl
  | append_singleton rows row ih =>
      rw [List.map_append, List.foldl_append, List.foldl_append, ← ih]
      simp only [List.map_cons, List.map_nil, List.foldl_cons, List.foldl_nil, indexRow, indexTime]
      set index := rows.foldl (indexRow dateParse) (emptyIndex lines.id)
      have hlatest : (indexTask (indexStep index row) row).latestTsMs = index.latestTsMs := by simp [indexTask]
      cases hms : row.ts.bind dateParse with
      | none => exact hlatest
      | some ms =>
          simp only [hlatest]
          cases hold : index.latestTsMs with
          | none => simp
          | some old =>
              by_cases hlt : old < ms
              · simp [hlt, max_eq_left hlt.le]
              · simp [hlt, hlatest, hold, max_eq_right (not_lt.mp hlt)]

/-! ### A reader skips the rows of other tasks -/

theorem foldl_filter_names {α : Type} (f : α → LedgerRow → α) (taskId : Text) (rows : List LedgerRow) (a : α)
    (hskip : ∀ a row, names taskId row = false → f a row = a) :
    (rows.filter (names taskId)).foldl f a = rows.foldl f a := by
  rw [List.foldl_filter]
  congr
  funext a row
  split
  · rfl
  next hnot => rw [hskip a row (Bool.eq_false_iff.mpr hnot)]

theorem taskId_ne_of_not_names {taskId : Text} {row : LedgerRow} (h : names taskId row = false) :
    (row.taskId == some taskId) = false ∧ (row.task == some taskId) = false := by
  simpa [names, Bool.or_eq_false_iff] using h

/-- A reader that keeps rows of the task only does not miss the others. -/
theorem filter_toRows_names (p : Row → Bool) (taskId : Text) (rows : List LedgerRow)
    (hown : ∀ row, p row = true → (row.taskId == some taskId) = true) :
    (toRows (rows.filter (names taskId))).filter p = (toRows rows).filter p := by
  unfold toRows
  rw [List.filter_map, List.filter_map, List.filter_filter]
  congr 1
  apply List.filter_congr
  intro row _
  cases hp : p row.toRow with
  | false => simp [hp]
  | true => simp [hp, names, hown _ hp]

theorem taskRowsInTimeOrder_names (taskId : Text) (rows : List LedgerRow) :
    taskRowsInTimeOrder (toRows (rows.filter (names taskId))) taskId = taskRowsInTimeOrder (toRows rows) taskId := by
  unfold taskRowsInTimeOrder
  rw [filter_toRows_names (fun line => line.taskId == some taskId) taskId rows fun _ h => h]

theorem provenOrphanRunIds_names (taskId : Text) (rows : List LedgerRow) (nowMs : Option ℤ) (livenessBoundMs : ℤ) :
    provenOrphanRunIds dateParse (toRows (rows.filter (names taskId))) nowMs livenessBoundMs taskId =
      provenOrphanRunIds dateParse (toRows rows) nowMs livenessBoundMs taskId := by
  unfold provenOrphanRunIds
  rw [filter_toRows_names _ taskId rows]
  intro row h
  simp only [Bool.and_eq_true] at h
  exact h.1.1

section Transparent

variable {lines : LedgerArray}

/-- An index of the array, as `computeLedgerIndex` builds it. -/
def IndexOf (lines : LedgerArray) (index : LedgerIndex) : Prop := index = computeLedgerIndex dateParse lines

variable {dateParse} {index : LedgerIndex} (taskId : Text)

theorem IndexOf.usable (h : IndexOf dateParse lines index) : usable lines (some index) = some index := by
  rw [IndexOf] at h
  subst h
  simp [Index.usable, rows_computeLedgerIndex]

theorem IndexOf.indexedTaskRows (h : IndexOf dateParse lines index) :
    indexedTaskRows lines taskId (some index) = lines.rows.filter (names taskId) := by
  rw [Index.indexedTaskRows, h.usable, ← bucket_computeLedgerIndex dateParse, ← h]

/-- Without an index every row is read. -/
theorem indexedTaskRows_none : indexedTaskRows lines taskId none = lines.rows := rfl

theorem IndexOf.lastPrOpened (h : IndexOf dateParse lines index) :
    lastPrOpened lines taskId (some index) = lastPrOpened lines taskId none := by
  rw [Index.lastPrOpened, Index.lastPrOpened, h.indexedTaskRows, indexedTaskRows_none, foldl_filter_names]
  intro url row hrow
  simp [(taskId_ne_of_not_names hrow).1]

theorem IndexOf.latestManualCompletion (h : IndexOf dateParse lines index) :
    latestManualCompletion lines taskId (some index) = latestManualCompletion lines taskId none := by
  rw [Index.latestManualCompletion, Index.latestManualCompletion, h.indexedTaskRows, indexedTaskRows_none,
    foldl_filter_names]
  intro found row hrow
  simp [(taskId_ne_of_not_names hrow).1]

/-- The reader that looks at both fields. -/
theorem IndexOf.seedCountFromCircuitBreak (h : IndexOf dateParse lines index) :
    seedCountFromCircuitBreak lines taskId (some index) = seedCountFromCircuitBreak lines taskId none := by
  rw [Index.seedCountFromCircuitBreak, Index.seedCountFromCircuitBreak, h.indexedTaskRows, indexedTaskRows_none,
    foldl_filter_names]
  intro seed row hrow
  obtain ⟨hid, htask⟩ := taskId_ne_of_not_names hrow
  simp [hid, htask]

theorem IndexOf.orphanedRunIds (h : IndexOf dateParse lines index) (opts : OrphanDetectionOpts) :
    orphanedRunIds dateParse lines taskId (some index) opts = orphanedRunIds dateParse lines taskId none opts := by
  have hnow : index.latestTsMs = latestLedgerTsMs dateParse (toRows lines.rows) := by
    rw [h, latestTsMs_computeLedgerIndex]
  simp only [Index.orphanedRunIds, h.usable, h.indexedTaskRows, indexedTaskRows_none, hnow, provenOrphanRunIds_names]
  rfl

theorem IndexOf.dispatchStreakTally (h : IndexOf dateParse lines index) (opts : OrphanDetectionOpts) :
    dispatchStreakTally dateParse lines taskId (some index) opts = dispatchStreakTally dateParse lines taskId none opts := by
  simp only [Index.dispatchStreakTally, h.orphanedRunIds, h.indexedTaskRows, indexedTaskRows_none,
    taskRowsInTimeOrder_names]

end Transparent

/-! ### The readers of `Dispatch.Streak` -/

/-- The rows that the readers of `Dispatch.Streak` scan are the bucket of the task. -/
theorem toRows_filter_names (taskId : Text) (rows : List LedgerRow) :
    toRows (rows.filter (names taskId)) = Dispatch.indexedTaskRows (toRows rows) taskId := by
  unfold toRows Dispatch.indexedTaskRows
  rw [List.filter_map]
  rfl

/-- The tally of `Dispatch.Streak` is the one of a reader with an index. -/
theorem dispatchStreakTally_eq (lines : LedgerArray) (taskId : Text) :
    Dispatch.dispatchStreakTally dateParse (toRows lines.rows) taskId =
      dispatchStreakTally dateParse lines taskId (some (computeLedgerIndex dateParse lines)) {} := by
  have hindex : IndexOf dateParse lines (computeLedgerIndex dateParse lines) := rfl
  have horphans : Dispatch.orphanedRunIds dateParse (toRows lines.rows) taskId =
      orphanedRunIds dateParse lines taskId (some (computeLedgerIndex dateParse lines)) {} := by
    rw [hindex.orphanedRunIds, Dispatch.orphanedRunIds, ← toRows_filter_names, provenOrphanRunIds_names]
    rfl
  simp only [Dispatch.dispatchStreakTally, dispatchStreakTally, horphans, hindex.indexedTaskRows, toRows_filter_names]

/-- So are the two readers of the refusals and of the pull requests. -/
theorem seedCountFromCircuitBreak_eq (lines : LedgerArray) (taskId : Text) :
    Dispatch.seedCountFromCircuitBreak (toRows lines.rows) taskId =
      seedCountFromCircuitBreak lines taskId (some (computeLedgerIndex dateParse lines)) := by
  have hindex : IndexOf dateParse lines (computeLedgerIndex dateParse lines) := rfl
  rw [Dispatch.seedCountFromCircuitBreak, seedCountFromCircuitBreak, hindex.indexedTaskRows, ← toRows_filter_names, toRows,
    List.foldl_map]

theorem lastPrOpened_eq (lines : LedgerArray) (taskId : Text) :
    Dispatch.lastPrOpened (toRows lines.rows) taskId =
      lastPrOpened lines taskId (some (computeLedgerIndex dateParse lines)) := by
  have hindex : IndexOf dateParse lines (computeLedgerIndex dateParse lines) := rfl
  rw [Dispatch.lastPrOpened, lastPrOpened, hindex.indexedTaskRows, ← toRows_filter_names, toRows, List.foldl_map]

/-! ### Generations -/

/-- The arrays of a process, with the generation each owner registered last and the index held for it. -/
structure IndexStore where
  contents : ℕ → List LedgerRow
  ledgerGenerations : ℕ → Option ℕ
  generationIndexes : ℕ → Option (ℕ × LedgerIndex)
  ledgerIndexBuilds : ℕ

def IndexStore.array (store : IndexStore) (id : ℕ) : LedgerArray := ⟨id, store.contents id⟩

/-- The index of an array: the one held for its generation, or a new one. -/
def buildLedgerIndex (store : IndexStore) (id : ℕ) : LedgerIndex × IndexStore :=
  let index := computeLedgerIndex dateParse (store.array id)
  match store.ledgerGenerations id with
  | none => (index, { store with ledgerIndexBuilds := store.ledgerIndexBuilds + 1 })
  | some generation =>
      match (store.generationIndexes id).filter fun held => held.1 = generation with
      | some held => (held.2, store)
      | none =>
          (index,
            { store with
              ledgerIndexBuilds := store.ledgerIndexBuilds + 1
              generationIndexes := Function.update store.generationIndexes id (some (generation, index)) })

inductive StoreEvent
  /-- new contents of an array whose owner registers no generation -/
  | change (id : ℕ) (rows : List LedgerRow)
  /-- new contents, and a new generation -/
  | touch (id : ℕ) (rows : List LedgerRow) (generation : ℕ)
  | build (id : ℕ)

/-- An owner that registers generations does so with every change, and counts upwards. -/
def StoreStep (store : IndexStore) (e : StoreEvent) (store' : IndexStore) : Prop :=
  match e with
  | .change id rows =>
      store.ledgerGenerations id = none ∧ store' = { store with contents := Function.update store.contents id rows }
  | .touch id rows generation =>
      (∀ g, store.ledgerGenerations id = some g → g < generation) ∧
      store' = { store with
        contents := Function.update store.contents id rows
        ledgerGenerations := Function.update store.ledgerGenerations id (some generation) }
  | .build id => store' = (buildLedgerIndex dateParse store id).2

/-- No array has a generation or an index yet. -/
def IndexStore.initial (contents : ℕ → List LedgerRow) : IndexStore := ⟨contents, fun _ => none, fun _ => none, 0⟩

/-- An index is held for a generation that was registered, and is right while it is the last one. -/
def Held (store : IndexStore) : Prop :=
  ∀ id g index, store.generationIndexes id = some (g, index) →
    ∃ g', store.ledgerGenerations id = some g' ∧ g ≤ g' ∧ (g = g' → IndexOf dateParse (store.array id) index)

section Generations

variable {dateParse} {store store' : IndexStore} {id : ℕ}

/-- The index that is returned is one of the contents. -/
theorem indexOf_buildLedgerIndex (h : Held dateParse store) (id : ℕ) :
    IndexOf dateParse (store.array id) (buildLedgerIndex dateParse store id).1 := by
  unfold buildLedgerIndex
  cases hgen : store.ledgerGenerations id with
  | none => rfl
  | some generation =>
      simp only
      split
      next held hheld =>
        obtain ⟨hsome, hsame⟩ := Option.filter_eq_some_iff.mp hheld
        obtain ⟨g, hg, -, hright⟩ := h id held.1 held.2 hsome
        rw [hgen] at hg
        obtain rfl := Option.some.inj hg
        exact hright (by simpa using hsame)
      next => rfl

theorem array_buildLedgerIndex (store : IndexStore) (id id' : ℕ) :
    (buildLedgerIndex dateParse store id).2.array id' = store.array id' := by
  unfold buildLedgerIndex
  split
  · rfl
  · dsimp only
    split <;> rfl

theorem held_build (h : Held dateParse store) (id : ℕ) : Held dateParse (buildLedgerIndex dateParse store id).2 := by
  unfold buildLedgerIndex
  cases hgen : store.ledgerGenerations id with
  | none => exact h
  | some generation =>
      simp only
      split
      · exact h
      · intro id' g index hheld
        dsimp only at hheld
        by_cases hid : id' = id
        · subst hid
          rw [Function.update_self] at hheld
          obtain ⟨rfl, rfl⟩ := Prod.mk.inj (Option.some.inj hheld)
          exact ⟨generation, hgen, le_refl _, fun _ => rfl⟩
        · rw [Function.update_of_ne hid] at hheld
          exact h id' g index hheld

theorem held_step {e : StoreEvent} (h : Held dateParse store) (hs : StoreStep dateParse store e store') :
    Held dateParse store' := by
  cases e with
  | change id rows =>
      obtain ⟨hnone, rfl⟩ := hs
      intro id' g index hheld
      obtain ⟨g', hg', hle, hright⟩ := h id' g index hheld
      -- the array that changed has no generation
      have hid : id' ≠ id := by
        intro heq
        rw [heq, hnone] at hg'
        cases hg'
      refine ⟨g', hg', hle, ?_⟩
      simpa [IndexStore.array, Function.update_of_ne hid] using hright
  | touch id rows generation =>
      obtain ⟨hnew, rfl⟩ := hs
      intro id' g index hheld
      obtain ⟨g', hg', hle, hright⟩ := h id' g index hheld
      by_cases hid : id' = id
      · subst hid
        have hlt := hnew g' hg'
        refine ⟨generation, by simp, by omega, ?_⟩
        intro heq
        omega
      · refine ⟨g', by simpa [Function.update_of_ne hid] using hg', hle, ?_⟩
        simpa [IndexStore.array, Function.update_of_ne hid] using hright
  | build id =>
      rw [StoreStep] at hs
      subst hs
      exact held_build h id

theorem held_run {contents : ℕ → List LedgerRow} {es : List StoreEvent}
    (hr : Run (StoreStep dateParse) (IndexStore.initial contents) es store) : Held dateParse store :=
  hr.invariant (fun _ _ _ h hs => held_step h hs) (fun _ _ _ h => by cases h)

end Generations

/-- The index that is built for an array, or held for it, gives every reader the answer of the whole array. -/
theorem index_transparent (dateParse : Text → Option ℤ) (contents : ℕ → List LedgerRow) (es : List StoreEvent)
    (store : IndexStore) (hr : Run (StoreStep dateParse) (IndexStore.initial contents) es store) (id : ℕ) (taskId : Text)
    (opts : OrphanDetectionOpts) :
    let lines := store.array id
    let index := some (buildLedgerIndex dateParse store id).1
    lastPrOpened lines taskId index = lastPrOpened lines taskId none ∧
    latestManualCompletion lines taskId index = latestManualCompletion lines taskId none ∧
    seedCountFromCircuitBreak lines taskId index = seedCountFromCircuitBreak lines taskId none ∧
    orphanedRunIds dateParse lines taskId index opts = orphanedRunIds dateParse lines taskId none opts ∧
    dispatchStreakTally dateParse lines taskId index opts = dispatchStreakTally dateParse lines taskId none opts := by
  have h := indexOf_buildLedgerIndex (held_run hr) id
  exact ⟨h.lastPrOpened taskId, h.latestManualCompletion taskId, h.seedCountFromCircuitBreak taskId,
    h.orphanedRunIds taskId opts, h.dispatchStreakTally taskId opts⟩

/-- A row with one id in both fields, a refusal that names the task in `task` only and a row of another task. -/
def mixedRows : List LedgerRow :=
  [{ taskId := some ['a'], task := some ['a'], step := some "pr.opened".toList, prUrl := some ['u'] },
    { task := some ['a'], step := some "dispatch.circuit_broken".toList, freshCount := some 5 },
    { taskId := some ['b'], task := some ['c'], step := some "pr.opened".toList, prUrl := some ['v'] }]

/-- The array is changed and its index is built twice: the second one is the one held. -/
theorem mixed_rows_transparent :
    ∃ store, Run (StoreStep fun _ => none) (IndexStore.initial fun _ => []) [.touch 0 mixedRows 1, .build 0] store ∧
      seedCountFromCircuitBreak (store.array 0) ['a'] (some (buildLedgerIndex (fun _ => none) store 0).1) =
        seedCountFromCircuitBreak (store.array 0) ['a'] none ∧
      seedCountFromCircuitBreak (store.array 0) ['a'] none = some 5 := by
  have htouch : ∃ store, StoreStep (fun _ => none) (IndexStore.initial fun _ => []) (.touch 0 mixedRows 1) store ∧
      store.array 0 = ⟨0, mixedRows⟩ :=
    ⟨_, ⟨fun _ h => by simp [IndexStore.initial] at h, rfl⟩, rfl⟩
  obtain ⟨touched, hstep, harray⟩ := htouch
  obtain ⟨store, hr, hstore⟩ : ∃ store, Run (StoreStep fun _ => none) (IndexStore.initial fun _ => [])
      [.touch 0 mixedRows 1, .build 0] store ∧ store.array 0 = touched.array 0 :=
    ⟨_, .cons hstep (.single rfl), array_buildLedgerIndex touched 0 0⟩
  obtain ⟨-, -, hseed, -, -⟩ := index_transparent (fun _ => none) _ _ store hr 0 ['a'] {}
  refine ⟨store, hr, hseed, ?_⟩
  rw [hstore, harray]
  decide +kernel

end Remudero.Dispatch.Index
