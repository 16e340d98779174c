import Remudero.Corpus.Read

/-! # Looking rows up by key

`ledgerRowsFor` and `ledgerRowsForSync` of `lib/ledger-union.ts` with the key manifests of
`lib/ledger-key-manifest.ts`.  A manifest says which task ids, runs, steps and pull requests an
archive names and how late its rows are; an archive whose manifest rules the query out is not
opened.

`ledgerManifestMayHold_of_kept`: a manifest built from an archive never rules out a query that keeps
one of its rows, so that both lookups read the rows a read of all archives does
(`keptRows_opened`).  They differ in one thing: the streaming reader skips a line that does not
spell a wanted step as `JSON.stringify` does, before it parses it.  `ledgerRows_eq_full_iff` is the
main result: both lookups are the full de-duplicated read filtered by the query exactly when every
row the query keeps stands in a line that spells one of its steps so. -/

namespace Remudero.Corpus

open Remudero.Lib

/-! ### The keys of a row -/

/-- A number as JavaScript has it; `⊤` is `Infinity`. -/
abbrev Num := WithTop ℚ

/-- `Number.isSafeInteger`. -/
def isSafeInteger (n : Num) : Bool :=
  match n with
  | none => false
  | some q => q.den == 1 && decide (q.num.natAbs ≤ 2 ^ 53 - 1)

variable (parseObject : Text → Option LedgerRow) (dateParse : Text → Option ℤ)
  (fingerprint : Text → Text) (numberOf : Text → Num)

/-- `numberOf` is `Number` on a text of digits. -/
def prNumberOf (value : PrField) : Option Num :=
  match value with
  | .number q => if isSafeInteger (some q) && decide (0 < q) then some (some q) else none
  | .text t =>
      if !t.isEmpty && digits t then
        if isSafeInteger (numberOf t) && decide (0 < numberOf t) then some (numberOf t) else none
      else none
  | .other => none

/-- The digits at the start of a text that begins with `/pull/`, if the number ends there. -/
def pullAt (t : Text) : Option Text :=
  let number := (t.drop 6).takeWhile Char.isDigit
  let after := (t.drop 6).dropWhile Char.isDigit
  if "/pull/".toList.isPrefixOf t && !number.isEmpty &&
      after.head?.all fun c => c = '/' || c = '?' || c = '#' then some number
  else none

/-- The first match of `\/pull\/(\d+)(?:$|[/?#])`. -/
def pullDigits : Text → Option Text
  | [] => none
  | c :: t => (pullAt (c :: t)).or (pullDigits t)

example : pullDigits "https://github.com/o/r/pull/x/pull/41?a".toList = some "41".toList := by
  decide +kernel

/-- The pull requests a row names, each once. -/
def ledgerRowPrNumbers (row : LedgerRow) : List Num :=
  firstSeen some [] ([row.prNumber, row.pr].filterMap (prNumberOf numberOf) ++
    ((row.prUrl.bind pullDigits).map numberOf).toList)

/-! ### Queries -/

/-- What a caller asks for; a list that is absent is empty. -/
structure LedgerKeyQuery where
  taskIds : List Text := []
  prNumbers : List Num := []
  runIds : List Text := []
  steps : List Text := []
  since : Option Text := none

def ledgerQueryIsKeyed (query : LedgerKeyQuery) : Bool :=
  !query.taskIds.isEmpty || !query.prNumbers.isEmpty || !query.runIds.isEmpty

def ledgerRowMatchesKeys (row : LedgerRow) (query : LedgerKeyQuery) : Bool :=
  !ledgerQueryIsKeyed query ||
    (row.taskId.any fun id => query.taskIds.contains id) ||
    (row.runId.any fun id => query.runIds.contains id) ||
    (ledgerRowPrNumbers numberOf row).any fun n => query.prNumbers.contains n

/-! ### Manifests -/

/-- The keys of an archive; the sorted arrays of the source are sets here. -/
structure LedgerKeyManifest where
  minTs : Option Text := none
  maxTs : Option Text := none
  hasInvalidStringTs : Bool := false
  taskIds : Finset Text := ∅
  prNumbers : Finset Num := ∅
  runIds : Finset Text := ∅
  steps : Finset Text := ∅
  rows : ℕ := 0

def ledgerManifestMayHold (manifest : LedgerKeyManifest) (query : LedgerKeyQuery) : Bool :=
  let outside := match query.since.bind dateParse with
    | none => false
    | some since => !manifest.hasInvalidStringTs &&
        manifest.maxTs.all fun ts => (dateParse ts).any fun ms => decide (ms < since)
  let named := query.steps.isEmpty || query.steps.any fun step => decide (step ∈ manifest.steps)
  !outside && named &&
    (!ledgerQueryIsKeyed query ||
      (query.taskIds.any fun id => decide (id ∈ manifest.taskIds)) ||
      (query.runIds.any fun id => decide (id ∈ manifest.runIds)) ||
      query.prNumbers.any fun n => decide (n ∈ manifest.prNumbers))

/-- A manifest being built, with the instants of its earliest and latest times, if there are any. -/
structure ManifestBuilder extends LedgerKeyManifest where
  minMs : Option ℤ := none
  maxMs : Option ℤ := none

namespace ManifestBuilder

/-- The time of one more row. -/
def addTs (b : ManifestBuilder) (ts : Text) : ManifestBuilder :=
  match dateParse ts with
  | none => { b with hasInvalidStringTs := true }
  | some ms =>
      let earlier := if b.minMs.all fun least => decide (ms < least) then
        { b with minMs := some ms, minTs := some ts } else b
      if earlier.maxMs.all fun most => decide (most < ms) then
        { earlier with maxMs := some ms, maxTs := some ts }
      else earlier

def addRow (b : ManifestBuilder) (row : LedgerRow) : ManifestBuilder :=
  let keyed : ManifestBuilder := { b with
    rows := b.rows + 1
    taskIds := row.taskId.toFinset ∪ b.taskIds
    runIds := row.runId.toFinset ∪ b.runIds
    steps := row.step.toFinset ∪ b.steps
    prNumbers := (ledgerRowPrNumbers numberOf row).toFinset ∪ b.prNumbers }
  match row.ts with
  | none => keyed
  | some ts => keyed.addTs dateParse ts

/-- One line: blank ones and those that hold no object name nothing. -/
def line (b : ManifestBuilder) (raw : Text) : ManifestBuilder :=
  if raw.trim.isEmpty then b
  else match parseObject raw.trim with
    | none => b
    | some row => b.addRow dateParse numberOf row

end ManifestBuilder

/-- The manifest of the lines of an archive. -/
def buildManifest (lines : List Text) : LedgerKeyManifest :=
  (lines.foldl (ManifestBuilder.line parseObject dateParse numberOf) {}).toLedgerKeyManifest

/-- The stored manifests that are current, and the archives one can be built for; a current manifest
was built from the archive's own lines. -/
structure ManifestStore where
  current : Archive → Option LedgerKeyManifest
  buildable : Archive → Bool
  built : ∀ archive manifest, current archive = some manifest →
    manifest = buildManifest parseObject dateParse numberOf archive.lines

variable {parseObject dateParse numberOf} in
/-- `none` is an archive for which no manifest can be built. -/
def readLedgerKeyManifest (store : ManifestStore parseObject dateParse numberOf) (archive : Archive) :
    Option LedgerKeyManifest :=
  match store.current archive with
  | some manifest => some manifest
  | none =>
      if store.buildable archive then some (buildManifest parseObject dateParse numberOf archive.lines)
      else none

variable {parseObject dateParse numberOf} in
/-- The archive is opened: its manifest is missing or does not rule the query out. -/
def opened (store : ManifestStore parseObject dateParse numberOf) (query : LedgerKeyQuery)
    (archive : Archive) : Bool :=
  (readLedgerKeyManifest store archive).all fun manifest =>
    ledgerManifestMayHold dateParse manifest query

/-! ### Lookups -/

def keyedUnionOptions (query : LedgerKeyQuery) : UnionOptions :=
  { since := query.since
    step := if query.steps.isEmpty then none else some query.steps
    whereRow := fun row => ledgerRowMatchesKeys numberOf row query }

variable {parseObject dateParse numberOf} in
/-- The rows of a query, with their lines. -/
def ledgerRowsFor (store : ManifestStore parseObject dateParse numberOf) (files : Files)
    (query : LedgerKeyQuery) : List (Text × LedgerRow) :=
  openLedgerUnion parseObject dateParse fingerprint files
    { keyedUnionOptions numberOf query with selectRotation := opened store query }

variable {parseObject dateParse numberOf} in
def ledgerRowsForSync (store : ManifestStore parseObject dateParse numberOf) (files : Files)
    (query : LedgerKeyQuery) : List (Text × LedgerRow) :=
  readLedgerUnionRecordsSync parseObject dateParse files
    { keyedUnionOptions numberOf query with selectRotation := opened store query }

/-- A read of the whole corpus with the union's own filters, filtered by the keys of the query. -/
def fullRowsFor (files : Files) (query : LedgerKeyQuery) : List (Text × LedgerRow) :=
  (readLedgerUnionRecordsSync parseObject dateParse files
    { since := query.since, step := if query.steps.isEmpty then none else some query.steps }).filter
      fun x => ledgerRowMatchesKeys numberOf x.2 query

/-! ### A manifest covers its rows -/

/-- The manifest names all keys of a row, and no later time than its latest. -/
structure Covers (manifest : LedgerKeyManifest) (row : LedgerRow) : Prop where
  taskId : ∀ id, row.taskId = some id → id ∈ manifest.taskIds
  runId : ∀ id, row.runId = some id → id ∈ manifest.runIds
  step : ∀ step, row.step = some step → step ∈ manifest.steps
  prNumbers : ∀ n ∈ ledgerRowPrNumbers numberOf row, n ∈ manifest.prNumbers
  invalidTs : ∀ ts, row.ts = some ts → dateParse ts = none → manifest.hasInvalidStringTs = true
  validTs : ∀ ts ms, row.ts = some ts → dateParse ts = some ms →
    ∃ last most, manifest.maxTs = some last ∧ dateParse last = some most ∧ ms ≤ most

/-- The builder's latest instant is that of its latest time. -/
def ManifestBuilder.Timed (b : ManifestBuilder) : Prop := b.maxTs.bind dateParse = b.maxMs

/-- The keys and times of one manifest are among those of another. -/
structure ManifestBuilder.Grows (b b' : ManifestBuilder) : Prop where
  taskIds : b.taskIds ⊆ b'.taskIds
  runIds : b.runIds ⊆ b'.runIds
  steps : b.steps ⊆ b'.steps
  prNumbers : b.prNumbers ⊆ b'.prNumbers
  invalidTs : b.hasInvalidStringTs = true → b'.hasInvalidStringTs = true
  maxMs : ∀ most, b.maxMs = some most → ∃ most', b'.maxMs = some most' ∧ most ≤ most'

section Builder

variable {parseObject dateParse numberOf} {b b' : ManifestBuilder} {row : LedgerRow}

theorem Covers.mono (h : Covers dateParse numberOf b.toLedgerKeyManifest row)
    (ht : b.Timed dateParse) (ht' : b'.Timed dateParse) (hg : b.Grows b') :
    Covers dateParse numberOf b'.toLedgerKeyManifest row := by
  refine ⟨fun id hid => hg.taskIds (h.taskId id hid), fun id hid => hg.runIds (h.runId id hid),
    fun step hstep => hg.steps (h.step step hstep), fun n hn => hg.prNumbers (h.prNumbers n hn),
    fun ts hts hms => hg.invalidTs (h.invalidTs ts hts hms), ?_⟩
  intro ts ms hts hms
  obtain ⟨last, most, hlast, hmost, hle⟩ := h.validTs ts ms hts hms
  have hmax : b.maxMs = some most := by
    rw [← ht, hlast]
    exact hmost
  obtain ⟨most', hmost', hle'⟩ := hg.maxMs most hmax
  rw [← ht', Option.bind_eq_some_iff] at hmost'
  obtain ⟨last', hlast', hparse⟩ := hmost'
  exact ⟨last', most', hlast', hparse, hle.trans hle'⟩

/-- What one more time does to a builder. -/
theorem addTs_spec (ht : b.Timed dateParse) (ts : Text) :
    (b.addTs dateParse ts).Timed dateParse ∧ b.Grows (b.addTs dateParse ts) ∧
      (dateParse ts = none → (b.addTs dateParse ts).hasInvalidStringTs = true) ∧
        ∀ ms, dateParse ts = some ms → ∃ most, (b.addTs dateParse ts).maxMs = some most ∧ ms ≤ most := by
  have hself : ∀ most, b.maxMs = some most → ∃ most', b.maxMs = some most' ∧ most ≤ most' :=
    fun most hmost => ⟨most, hmost, le_refl _⟩
  unfold ManifestBuilder.addTs
  cases hms : dateParse ts with
  | none =>
      refine ⟨ht, ⟨subset_rfl, subset_rfl, subset_rfl, subset_rfl, fun _ => rfl, hself⟩, fun _ => rfl, ?_⟩
      intro ms hnone
      cases hnone
  | some ms =>
      dsimp only
      -- an earlier time leaves the latest one alone
      have hearlier : ∀ e : ManifestBuilder, e = (if b.minMs.all fun least => decide (ms < least) then
          { b with minMs := some ms, minTs := some ts } else b) →
            e.Timed dateParse ∧ b.Grows e ∧ e.maxMs = b.maxMs := by
        rintro e rfl
        split_ifs
        · exact ⟨ht, ⟨subset_rfl, subset_rfl, subset_rfl, subset_rfl, id, hself⟩, rfl⟩
        · exact ⟨ht, ⟨subset_rfl, subset_rfl, subset_rfl, subset_rfl, id, hself⟩, rfl⟩
      generalize hgen : (if b.minMs.all fun least => decide (ms < least) then
          { b with minMs := some ms, minTs := some ts } else b) = earlier
      obtain ⟨hte, hge, hme⟩ := hearlier earlier hgen.symm
      split_ifs with hlater
      · refine ⟨hms, ⟨hge.taskIds, hge.runIds, hge.steps, hge.prNumbers, hge.invalidTs, ?_⟩, ?_, ?_⟩
        · intro most hmost
          rw [hme, hmost] at hlater
          exact ⟨ms, rfl, le_of_lt (by simpa using hlater)⟩
        · intro hnone
          cases hnone
        · intro ms' hms'
          cases hms'
          exact ⟨ms, rfl, le_refl _⟩
      · refine ⟨hte, hge, ?_, ?_⟩
        · intro hnone
          cases hnone
        intro ms' hms'
        cases hms'
        cases hmax : earlier.maxMs with
        | none => simp [hmax] at hlater
        | some most => exact ⟨most, rfl, by simpa [hmax] using hlater⟩

variable (numberOf) in
/-- A row is covered once it is added, and nothing is lost. -/
theorem addRow_spec (ht : b.Timed dateParse) (row : LedgerRow) :
    (b.addRow dateParse numberOf row).Timed dateParse ∧ b.Grows (b.addRow dateParse numberOf row) ∧
      Covers dateParse numberOf (b.addRow dateParse numberOf row).toLedgerKeyManifest row := by
  unfold ManifestBuilder.addRow
  set keyed : ManifestBuilder := { b with
    rows := b.rows + 1
    taskIds := row.taskId.toFinset ∪ b.taskIds
    runIds := row.runId.toFinset ∪ b.runIds
    steps := row.step.toFinset ∪ b.steps
    prNumbers := (ledgerRowPrNumbers numberOf row).toFinset ∪ b.prNumbers } with hkeyed
  have htk : keyed.Timed dateParse := ht
  have hgk : b.Grows keyed :=
    ⟨Finset.subset_union_right, Finset.subset_union_right, Finset.subset_union_right,
      Finset.subset_union_right, id, fun most hmost => ⟨most, hmost, le_refl _⟩⟩
  have htask : ∀ id, row.taskId = some id → id ∈ keyed.taskIds := by
    intro id hid
    simp [hkeyed, hid]
  have hrun : ∀ id, row.runId = some id → id ∈ keyed.runIds := by
    intro id hid
    simp [hkeyed, hid]
  have hstep : ∀ step, row.step = some step → step ∈ keyed.steps := by
    intro step hs
    simp [hkeyed, hs]
  have hpr : ∀ n ∈ ledgerRowPrNumbers numberOf row, n ∈ keyed.prNumbers := by
    intro n hn
    simp [hkeyed, hn]
  cases hts : row.ts with
  | none =>
      refine ⟨htk, hgk, htask, hrun, hstep, hpr, ?_, ?_⟩
      · intro ts hsome
        rw [hts] at hsome
        cases hsome
      · intro ts ms hsome
        rw [hts] at hsome
        cases hsome
  | some ts =>
      obtain ⟨htimed, hgrows, hinvalid, hvalid⟩ := addTs_spec htk ts
      have hall : b.Grows (keyed.addTs dateParse ts) :=
        ⟨hgk.taskIds.trans hgrows.taskIds, hgk.runIds.trans hgrows.runIds,
          hgk.steps.trans hgrows.steps, hgk.prNumbers.trans hgrows.prNumbers,
          fun hb => hgrows.invalidTs (hgk.invalidTs hb), hgrows.maxMs⟩
      refine ⟨htimed, hall, fun id hid => hgrows.taskIds (htask id hid),
        fun id hid => hgrows.runIds (hrun id hid), fun step hs => hgrows.steps (hstep step hs),
        fun n hn => hgrows.prNumbers (hpr n hn), ?_, ?_⟩
      · intro ts' hts' hnone
        obtain rfl := Option.some.inj (hts.symm.trans hts')
        exact hinvalid hnone
      · intro ts' ms hts' hms
        obtain rfl := Option.some.inj (hts.symm.trans hts')
        obtain ⟨most, hmost, hle⟩ := hvalid ms hms
        rw [← htimed, Option.bind_eq_some_iff] at hmost
        obtain ⟨last, hlast, hparse⟩ := hmost
        exact ⟨last, most, hlast, hparse, hle⟩

/-- Reading lines keeps what is covered and covers the rows of the lines. -/
theorem covers_foldl (lines : List Text) (ht : b.Timed dateParse) :
    (∀ row, Covers dateParse numberOf b.toLedgerKeyManifest row → Covers dateParse numberOf
      (lines.foldl (ManifestBuilder.line parseObject dateParse numberOf) b).toLedgerKeyManifest row) ∧
    ∀ line ∈ trimmedLines lines, ∀ row, parseObject line = some row → Covers dateParse numberOf
      (lines.foldl (ManifestBuilder.line parseObject dateParse numberOf) b).toLedgerKeyManifest row := by
  induction lines generalizing b with
  | nil => exact ⟨fun _ h => h, fun line hline => by cases hline⟩
  | cons raw lines ih =>
      rw [List.foldl_cons]
      by_cases hblank : raw.trim.isEmpty = true
      · have hline : b.line parseObject dateParse numberOf raw = b := by
          rw [ManifestBuilder.line, if_pos hblank]
        have htrim : trimmedLines (raw :: lines) = trimmedLines lines := by
          simp [trimmedLines, List.isEmpty_iff.mp hblank]
        rw [hline, htrim]
        exact ih ht
      · have htrim : trimmedLines (raw :: lines) = raw.trim :: trimmedLines lines := by
          simp only [trimmedLines, List.map_cons]
          rw [List.filter_cons_of_pos (by simpa using hblank)]
        rw [htrim]
        cases hparse : parseObject raw.trim with
        | none =>
            have hline : b.line parseObject dateParse numberOf raw = b := by
              rw [ManifestBuilder.line, if_neg hblank, hparse]
            rw [hline]
            refine ⟨(ih ht).1, ?_⟩
            intro line hmem row hrow
            rcases List.mem_cons.mp hmem with rfl | hmem
            · rw [hparse] at hrow
              cases hrow
            · exact (ih ht).2 line hmem row hrow
        | some new =>
            have hline : b.line parseObject dateParse numberOf raw =
                b.addRow dateParse numberOf new := by
              rw [ManifestBuilder.line, if_neg hblank, hparse]
            obtain ⟨htimed, hgrows, hnew⟩ := addRow_spec numberOf ht new
            rw [hline]
            refine ⟨fun row h => (ih htimed).1 row (h.mono ht htimed hgrows), ?_⟩
            intro line hmem row hrow
            rcases List.mem_cons.mp hmem with rfl | hmem
            · obtain rfl := Option.some.inj (hparse.symm.trans hrow)
              exact (ih htimed).1 new hnew
            · exact (ih htimed).2 line hmem row hrow

theorem covers_buildManifest {lines : List Text} {line : Text} (hline : line ∈ trimmedLines lines)
    (hrow : parseObject line = some row) :
    Covers dateParse numberOf (buildManifest parseObject dateParse numberOf lines) row := by
  have ht : ({} : ManifestBuilder).Timed dateParse := rfl
  exact (covers_foldl lines ht).2 line hline row hrow

end Builder

/-! ### No row is skipped -/

/-- The query keeps the row: its time, its step and its keys. -/
def queryKeeps (row : LedgerRow) (query : LedgerKeyQuery) : Bool :=
  recordMatchesFilters dateParse row (keyedUnionOptions numberOf query)
    (sinceMs dateParse (keyedUnionOptions numberOf query)) && ledgerRowMatchesKeys numberOf row query

section Skip

variable {parseObject dateParse numberOf} {query : LedgerKeyQuery} {row : LedgerRow}
  {manifest : LedgerKeyManifest}
  {store : ManifestStore parseObject dateParse numberOf}

theorem notOutside_of_covers (hc : Covers dateParse numberOf manifest row) {since : ℤ} {ts : Text}
    (hts : row.ts = some ts) (hlate : ∀ ms, dateParse ts = some ms → since ≤ ms) :
    (!manifest.hasInvalidStringTs && manifest.maxTs.all fun ts =>
      (dateParse ts).any fun ms => decide (ms < since)) = false := by
  cases hms : dateParse ts with
  | none =>
      rw [hc.invalidTs ts hts hms]
      rfl
  | some ms =>
      obtain ⟨last, most, hlast, hparse, hle⟩ := hc.validTs ts ms hts hms
      have hnot : ¬ most < since := by
        have := hlate ms hms
        omega
      simp [hlast, hparse, hnot]

theorem namesKey_of_covers (hc : Covers dateParse numberOf manifest row)
    (hkeys : ledgerRowMatchesKeys numberOf row query = true) :
    (!ledgerQueryIsKeyed query ||
      (query.taskIds.any fun id => decide (id ∈ manifest.taskIds)) ||
      (query.runIds.any fun id => decide (id ∈ manifest.runIds)) ||
      query.prNumbers.any fun n => decide (n ∈ manifest.prNumbers)) = true := by
  rw [ledgerRowMatchesKeys, Bool.or_eq_true, Bool.or_eq_true, Bool.or_eq_true] at hkeys
  rw [Bool.or_eq_true, Bool.or_eq_true, Bool.or_eq_true]
  obtain ((hunkeyed | htask) | hrun) | hpr := hkeys
  · exact .inl (.inl (.inl hunkeyed))
  · rw [Option.any_eq_true] at htask
    obtain ⟨id, hid, hmem⟩ := htask
    exact .inl (.inl (.inr (List.any_eq_true.mpr
      ⟨id, by simpa using hmem, by simpa using hc.taskId id hid⟩)))
  · rw [Option.any_eq_true] at hrun
    obtain ⟨id, hid, hmem⟩ := hrun
    exact .inl (.inr (List.any_eq_true.mpr
      ⟨id, by simpa using hmem, by simpa using hc.runId id hid⟩))
  · obtain ⟨n, hn, hmem⟩ := List.any_eq_true.mp hpr
    exact .inr (List.any_eq_true.mpr ⟨n, by simpa using hmem, by simpa using hc.prNumbers n hn⟩)

theorem namesStep_of_covers (hc : Covers dateParse numberOf manifest row)
    (hstep : stepMatches row (keyedUnionOptions numberOf query).step = true) :
    (query.steps.isEmpty || query.steps.any fun step => decide (step ∈ manifest.steps)) = true := by
  cases hempty : query.steps.isEmpty with
  | true => rfl
  | false =>
      simp only [keyedUnionOptions, hempty, stepMatches, Bool.false_eq_true, if_false,
        Option.any_eq_true] at hstep
      obtain ⟨step, hs, hmem⟩ := hstep
      rw [Bool.false_or, List.any_eq_true]
      exact ⟨step, by simpa using hmem, by simpa using hc.step step hs⟩

/-- A manifest that covers a row does not rule out a query that keeps the row. -/
theorem ledgerManifestMayHold_of_kept (hc : Covers dateParse numberOf manifest row)
    (hkeep : queryKeeps dateParse numberOf row query = true) :
    ledgerManifestMayHold dateParse manifest query = true := by
  unfold queryKeeps recordMatchesFilters at hkeep
  rw [Bool.and_eq_true, Bool.and_eq_true] at hkeep
  obtain ⟨⟨htime, hstep⟩, hkeys⟩ := hkeep
  unfold ledgerManifestMayHold
  simp only [Bool.and_eq_true, Bool.not_eq_true']
  refine ⟨⟨?_, namesStep_of_covers hc hstep⟩, namesKey_of_covers hc hkeys⟩
  cases hsince : query.since.bind dateParse with
  | none => rfl
  | some since =>
      have hmin : sinceMs dateParse (keyedUnionOptions numberOf query) = some since := hsince
      rw [hmin] at htime
      simp only [Option.any_eq_true] at htime
      obtain ⟨ts, hts, hlate⟩ := htime
      refine notOutside_of_covers hc hts ?_
      intro ms hms
      simpa [hms] using hlate

/-- The archive of a row that the query keeps is opened. -/
theorem opened_of_kept {archive : Archive} {line : Text} (hline : line ∈ trimmedLines archive.lines)
    (hrow : parseObject line = some row) (hkeep : queryKeeps dateParse numberOf row query = true) :
    opened store query archive = true := by
  have hbuilt : ledgerManifestMayHold dateParse
      (buildManifest parseObject dateParse numberOf archive.lines) query = true :=
    ledgerManifestMayHold_of_kept (covers_buildManifest hline hrow) hkeep
  unfold opened readLedgerKeyManifest
  cases hcur : store.current archive with
  | some manifest =>
      rw [store.built archive manifest hcur]
      exact hbuilt
  | none =>
      dsimp only
      split_ifs
      · exact hbuilt
      · rfl

variable (parseObject dateParse) in
/-- The rows that a read with the given options keeps of some lines. -/
def keptRows (opts : UnionOptions) (lines : List Text) : List (Text × LedgerRow) :=
  (trimmedLines lines).filterMap (keptRow parseObject dateParse opts)

theorem keptRows_append (opts : UnionOptions) (l m : List Text) :
    keptRows parseObject dateParse opts (l ++ m) =
      keptRows parseObject dateParse opts l ++ keptRows parseObject dateParse opts m := by
  simp [keptRows, trimmedLines]

theorem keptRow_keyed (line : Text) :
    keptRow parseObject dateParse (keyedUnionOptions numberOf query) line =
      (parseObject line).bind fun row =>
        if queryKeeps dateParse numberOf row query then some (line, row) else none := by
  unfold keptRow
  cases parseObject line with
  | none => rfl
  | some row => rfl

variable (store query) in
/-- The rows the query keeps are in the archives that are opened. -/
theorem keptRows_opened (archives : List Archive) :
    keptRows parseObject dateParse (keyedUnionOptions numberOf query)
        ((archives.filter (opened store query)).flatMap Archive.lines) =
      keptRows parseObject dateParse (keyedUnionOptions numberOf query)
        (archives.flatMap Archive.lines) := by
  induction archives with
  | nil => rfl
  | cons archive archives ih =>
      rw [List.flatMap_cons, keptRows_append, List.filter_cons]
      split_ifs with hopen
      · rw [List.flatMap_cons, keptRows_append, ih]
      · have hnone : keptRows parseObject dateParse (keyedUnionOptions numberOf query)
            archive.lines = [] := by
          refine List.filterMap_eq_nil_iff.mpr ?_
          intro line hline
          rw [keptRow_keyed]
          cases hrow : parseObject line with
          | none => rfl
          | some row =>
              rw [Option.bind_some, if_neg]
              exact fun hkeep => hopen (opened_of_kept hline hrow hkeep)
        rw [hnone, List.nil_append, ih]

variable (dateParse) in
/-- The lines of the archives inside the time bound and of the live file. -/
def windowLines (files : Files) (query : LedgerKeyQuery) : List Text :=
  (files.archives.filter fun a =>
    !rotationBeforeWindow dateParse a (query.since.bind dateParse)).flatMap Archive.lines ++
      files.live.getD []

/-- The synchronous lookup reads the rows of the whole corpus. -/
theorem ledgerRowsForSync_eq (files : Files) :
    ledgerRowsForSync store files query = firstSeen (fun x => some x.1) []
      (keptRows parseObject dateParse (keyedUnionOptions numberOf query)
        (windowLines dateParse files query)) := by
  have hrows := keptRows_opened query store (files.archives.filter fun a =>
    !rotationBeforeWindow dateParse a (query.since.bind dateParse))
  unfold windowLines
  rw [keptRows_append, ← hrows, ← keptRows_append]
  rfl

/-- A line may be tested before it is parsed. -/
theorem filterMap_filter_names (opts : UnionOptions) (p : Text → Bool) (lines : List Text) :
    (lines.filter p).filterMap (keptRow parseObject dateParse opts) =
      (lines.filterMap (keptRow parseObject dateParse opts)).filter fun x => p x.1 := by
  have hline : ∀ line x, keptRow parseObject dateParse opts line = some x → x.1 = line := by
    intro line x hx
    unfold keptRow at hx
    cases hrow : parseObject line with
    | none => simp [hrow] at hx
    | some row =>
        rw [hrow] at hx
        dsimp only at hx
        split_ifs at hx
        cases hx
        rfl
  induction lines with
  | nil => rfl
  | cons line lines ih =>
      rw [List.filter_cons, List.filterMap_cons]
      cases hx : keptRow parseObject dateParse opts line with
      | none =>
          split_ifs
          · rw [List.filterMap_cons, hx]
            exact ih
          · exact ih
      | some x =>
          dsimp only
          rw [List.filter_cons, hline line x hx]
          split_ifs
          · rw [List.filterMap_cons, hx, ih]
          · exact ih

/-- The streaming lookup reads those rows whose lines name a wanted step. -/
theorem unionRows_keyed (files : Files) :
    unionRows parseObject dateParse files
        { keyedUnionOptions numberOf query with selectRotation := opened store query } =
      (keptRows parseObject dateParse (keyedUnionOptions numberOf query)
        (windowLines dateParse files query)).filter
          fun x => namesStep (keyedUnionOptions numberOf query) x.1 := by
  set opts : UnionOptions :=
    { keyedUnionOptions numberOf query with selectRotation := opened store query } with hopts
  have hchosen : chosenRotations dateParse files opts = (files.archives.filter fun a =>
      !rotationBeforeWindow dateParse a (query.since.bind dateParse)).filter (opened store query) := by
    have hafter : opts.afterRotation = none := rfl
    have hsince : sinceMs dateParse opts = query.since.bind dateParse := rfl
    have hselect : opts.selectRotation = opened store query := rfl
    unfold chosenRotations
    simp only [hafter, hsince, hselect, Option.all_none, List.filter_true]
    rw [List.filter_comm]
  have hlines : unionLines dateParse files opts = ((files.archives.filter fun a =>
      !rotationBeforeWindow dateParse a (query.since.bind dateParse)).filter
        (opened store query)).flatMap Archive.lines ++ files.live.getD [] := by
    have hstop : opts.stopAfterRotation = none := rfl
    unfold unionLines
    simp only [hstop, stops_none, throughStop_none, hchosen, Bool.false_eq_true, if_false]
  have hkept : keptRow parseObject dateParse opts =
      keptRow parseObject dateParse (keyedUnionOptions numberOf query) := rfl
  have hnames : namesStep opts = namesStep (keyedUnionOptions numberOf query) := rfl
  have hrows := keptRows_opened query store (files.archives.filter fun a =>
    !rotationBeforeWindow dateParse a (query.since.bind dateParse))
  unfold unionRows
  rw [hlines, hkept, hnames, windowLines, keptRows_append, ← hrows, ← keptRows_append, keptRows]
  exact filterMap_filter_names _ _ _

/-- A line that a read keeps is a line of the corpus that parses to the row. -/
theorem parse_of_mem_keptRows {opts : UnionOptions} {lines : List Text} {x : Text × LedgerRow}
    (h : x ∈ keptRows parseObject dateParse opts lines) :
    x.1 ∈ trimmedLines lines ∧ parseObject x.1 = some x.2 := by
  obtain ⟨line, hline, hx⟩ := List.mem_filterMap.mp h
  unfold keptRow at hx
  cases hrow : parseObject line with
  | none => simp [hrow] at hx
  | some row =>
      rw [hrow] at hx
      dsimp only at hx
      split_ifs at hx
      cases hx
      exact ⟨hline, hrow⟩

/-- The filter by keys may come before the rows are told apart. -/
theorem fullRowsFor_eq (files : Files) :
    fullRowsFor parseObject dateParse numberOf files query = firstSeen (fun x => some x.1) []
      (keptRows parseObject dateParse (keyedUnionOptions numberOf query)
        (windowLines dateParse files query)) := by
  set plain : UnionOptions :=
    { since := query.since, step := if query.steps.isEmpty then none else some query.steps }
    with hplain
  have hfull : fullRowsFor parseObject dateParse numberOf files query =
      (firstSeen (fun x => some x.1) [] (keptRows parseObject dateParse plain
        (windowLines dateParse files query))).filter
          fun x => ledgerRowMatchesKeys numberOf x.2 query := by
    have hall : ∀ l : List Archive, l.filter plain.selectRotation = l := fun l => List.filter_true l
    unfold fullRowsFor readLedgerUnionRecordsSync
    rw [hall]
    rfl
  have hfilter : (keptRows parseObject dateParse plain (windowLines dateParse files query)).filter
      (fun x => ledgerRowMatchesKeys numberOf x.2 query) =
        keptRows parseObject dateParse (keyedUnionOptions numberOf query)
          (windowLines dateParse files query) := by
    unfold keptRows
    rw [List.filter_filterMap]
    congr 1
    funext line
    rw [keptRow_keyed]
    unfold keptRow
    cases parseObject line with
    | none => rfl
    | some row =>
        have hkeeps : queryKeeps dateParse numberOf row query =
            (recordMatchesFilters dateParse row plain (sinceMs dateParse plain) &&
              ledgerRowMatchesKeys numberOf row query) := rfl
        have hwhere : plain.whereRow row = true := rfl
        rw [Option.bind_some, hkeeps]
        simp only [hwhere, Bool.and_true]
        cases recordMatchesFilters dateParse row plain (sinceMs dateParse plain) with
        | false => rfl
        | true =>
            cases hkeys : ledgerRowMatchesKeys numberOf row query with
            | false => simp [Option.filter, hkeys]
            | true => simp [Option.filter, hkeys]
  rw [hfull, ← hfilter]
  symm
  let byLine : Text → Bool := fun line =>
    (parseObject line).any fun row => ledgerRowMatchesKeys numberOf row query
  refine firstSeen_filter (q := byLine) _ ?_ (fun _ _ => Iff.rfl)
  intro x hx
  refine ⟨x.1, rfl, ?_⟩
  simp only [byLine, (parse_of_mem_keptRows hx).2, Option.any_some]

theorem ledgerRowsFor_eq (files : Files) :
    ledgerRowsFor fingerprint store files query =
      (fullRowsFor parseObject dateParse numberOf files query).filter
        fun x => namesStep (keyedUnionOptions numberOf query) x.1 := by
  have hread : ledgerRowsFor fingerprint store files query = firstSeen (fun x => some x.1) []
      (unionRows parseObject dateParse files
        { keyedUnionOptions numberOf query with selectRotation := opened store query }) := rfl
  rw [hread, unionRows_keyed, fullRowsFor_eq]
  refine firstSeen_filter (q := namesStep (keyedUnionOptions numberOf query)) _ ?_
    (fun _ _ => Iff.rfl)
  exact fun x _ => ⟨x.1, rfl, rfl⟩

variable (parseObject dateParse numberOf) in
/-- Every row the query keeps stands in a line that spells a wanted step as `JSON.stringify`
does. -/
def SpellsSteps (files : Files) (query : LedgerKeyQuery) : Prop :=
  query.steps ≠ [] → ∀ line ∈ trimmedLines (windowLines dateParse files query), ∀ row,
    parseObject line = some row → queryKeeps dateParse numberOf row query = true →
      ∃ step ∈ query.steps, Json.quote step <:+: line

theorem namesStep_keyed (line : Text) :
    namesStep (keyedUnionOptions numberOf query) line = true ↔
      (query.steps ≠ [] → ∃ step ∈ query.steps, Json.quote step <:+: line) := by
  unfold namesStep keyedUnionOptions
  cases hsteps : query.steps with
  | nil => simp
  | cons step steps => simp [Text.contains]

/-- **Both lookups are the full read filtered by the query** exactly when the rows it keeps spell
their steps plainly. -/
theorem ledgerRows_eq_full_iff (store : ManifestStore parseObject dateParse numberOf)
    (fingerprint : Text → Text) (files : Files) (query : LedgerKeyQuery) :
    (ledgerRowsFor fingerprint store files query =
        fullRowsFor parseObject dateParse numberOf files query ∧
      ledgerRowsForSync store files query =
        fullRowsFor parseObject dateParse numberOf files query) ↔
      SpellsSteps parseObject dateParse numberOf files query := by
  rw [ledgerRowsFor_eq, List.filter_eq_self, fullRowsFor_eq]
  constructor
  · rintro ⟨hall, -⟩ hsteps line hline row hrow hkeep
    have hkept : (line, row) ∈ keptRows parseObject dateParse (keyedUnionOptions numberOf query)
        (windowLines dateParse files query) := by
      refine List.mem_filterMap.mpr ⟨line, hline, ?_⟩
      rw [keptRow_keyed, hrow, Option.bind_some, if_pos hkeep]
    obtain ⟨x, hx, hxl⟩ := exists_mem_firstSeen (fun x : Text × LedgerRow => some x.1) hkept rfl
      List.not_mem_nil
    have hnames := hall x hx
    rw [Option.some.inj hxl] at hnames
    exact (namesStep_keyed line).mp hnames hsteps
  · intro hspells
    refine ⟨?_, by rw [ledgerRowsForSync_eq]⟩
    intro x hx
    have hmem := (firstSeen_sublist (fun x : Text × LedgerRow => some x.1) [] _).subset hx
    obtain ⟨hline, hrow⟩ := parse_of_mem_keptRows hmem
    refine (namesStep_keyed x.1).mpr fun hsteps => ?_
    refine hspells hsteps x.1 hline x.2 hrow ?_
    obtain ⟨line, -, hkept⟩ := List.mem_filterMap.mp hmem
    rw [keptRow_keyed] at hkept
    cases hparse : parseObject line with
    | none => simp [hparse] at hkept
    | some row =>
        rw [hparse, Option.bind_some] at hkept
        split_ifs at hkept with hkeep
        cases hkept
        exact hkeep

end Skip

/-! ### A step spelled with an escape -/

def escapedLine : Text := "\x7b\"step\":\"caf\\u00e9\"\x7d".toList

/-- The escape stands for one letter. -/
def parseEscapedLine (line : Text) : Option LedgerRow :=
  if line = escapedLine then some { step := some "café".toList } else none

/-- No manifest is stored and each can be built. -/
def emptyStore : ManifestStore parseEscapedLine (fun _ => none) (fun _ => 0) :=
  { current := fun _ => none, buildable := fun _ => true, built := fun _ _ h => by cases h }

/-- The row is of the wanted step and its archive is opened, but the streaming lookup drops it. -/
theorem ledgerRowsFor_drops_escaped_step :
    let files : Files := { archives := [
      { name := "ledger.2026-10-27T00-00-00-000Z.ndjson".toList, lines := [escapedLine] }] }
    let query : LedgerKeyQuery := { steps := ["café".toList] }
    fullRowsFor parseEscapedLine (fun _ => none) (fun _ => 0) files query =
        [(escapedLine, { step := some "café".toList })] ∧
      ledgerRowsForSync emptyStore files query =
        [(escapedLine, { step := some "café".toList })] ∧
      ledgerRowsFor id emptyStore files query = [] := by
  decide +kernel

end Remudero.Corpus
