import Remudero.Corpus.Read
import Remudero.Lib.Calendar
import Remudero.Lib.Comparators
import Remudero.Lib.FirstSeen
import Remudero.Lib.Regex
import Remudero.Lib.Utf16

/-! # Compaction of the archives

`ledgerCompactCommand` of `lib/ledger-compact.ts` and `compactRotations` of `lib/ledger.ts`: which
archives one pass selects, how their distinct rows fall into one body per UTC day and, at the byte
ceiling, into parts, what each part is called, and the durable steps of the pass, which are the writes
of the staged parts and then the moves of the sources to the cold store.

A file of the state directory is its name, its text and two sizes.  The file system does not fail.
`Date.parse` and the size of a compressed text are parameters; `Date.parse` reads back the time that
`toISOString` wrote, so a name that is made from a time is modelled by that time. -/

namespace Remudero.Ledger

open Remudero.Lib
open Remudero.Corpus (rotationStampIso)

def LEDGER_COMPACT_MAX_SOURCES : ℕ := 50

def LEDGER_COMPACT_MAX_ARCHIVE_BYTES : ℕ := 64 * 1024 * 1024

def MERGED_ARCHIVE_SIZE_FACTOR : ℕ := 4

/-! ### The state directory -/

structure LedgerFile where
  name : Text
  /-- the text, decompressed -/
  content : Text
  /-- the size of the file, decompressed; a torn file need not be the UTF-8 of its text -/
  bytes : ℕ
  /-- the size on disk -/
  disk : ℕ
deriving DecidableEq

/-- The files of the state directory, in no particular order. -/
structure StateDir where
  files : List LedgerFile
  nodup : (files.map LedgerFile.name).Nodup

namespace StateDir

def has (dir : StateDir) (name : Text) : Bool := dir.files.any fun f => f.name = name

def removed (dir : StateDir) (name : Text) : List LedgerFile := dir.files.filter fun f => f.name ≠ name

theorem nodup_removed (dir : StateDir) (name : Text) : ((dir.removed name).map LedgerFile.name).Nodup :=
  dir.nodup.sublist (List.filter_sublist.map _)

/-- Move a file away. -/
def remove (dir : StateDir) (name : Text) : StateDir := ⟨dir.removed name, dir.nodup_removed name⟩

/-- Write a file in the place of the one that has its name. -/
def write (dir : StateDir) (f : LedgerFile) : StateDir where
  files := dir.removed f.name ++ [f]
  nodup := by
    rw [List.map_append, List.map_singleton]
    refine List.nodup_append.mpr ⟨dir.nodup_removed f.name, List.nodup_singleton _, ?_⟩
    intro a ha b hb hab
    obtain ⟨g, hg, rfl⟩ := List.mem_map.mp ha
    have hne := (List.mem_filter.mp hg).2
    rw [List.mem_singleton.mp hb] at hab
    simp [hab] at hne

end StateDir

/-! ### Names -/

/-- `\.ndjson(?:\.gz)?$`. -/
def archiveSuffix : Re := .seqs [.text ".ndjson", .opt (.text ".gz"), .stop]

/-- The stamp of a name, also of that of a part. -/
def compactionStamp (name : Text) : Option Text :=
  rotationStampIso <|
    match (Re.seq (.group 0 (.seqs [.text "-part-", .plus .digit])) (.ahead archiveSuffix)).exec name with
    | none => name
    | some m => (m.before.drop (m.group 0).length).reverse ++ m.rest

def isArchivePart (name : Text) : Bool :=
  (Re.seqs [.text "-part-", .plus .digit, archiveSuffix]).test name

/-- The files that `ledgerRotationEntries` lists; `ledger.ndjson` is the live ledger. -/
def isRotation (name : Text) : Bool :=
  "ledger.".toList.isPrefixOf name && name ≠ "ledger.ndjson".toList &&
    (Text.endsWith name ".ndjson.gz" || Text.endsWith name ".ndjson")

def StateDir.archives (dir : StateDir) : List LedgerFile := dir.files.filter fun f => isRotation f.name

/-- The archives by name, which is by time. -/
def ledgerRotationEntries (dir : StateDir) : List LedgerFile :=
  dir.archives.mergeSort fun a b => (compare (Text.utf16 a.name) (Text.utf16 b.name)).isLE

def compactedArchiveName (newestMs : ℤ) : Text :=
  "ledger.".toList ++ (toISOString newestMs).map (fun c => if c == ':' || c == '.' then '-' else c) ++
    ".ndjson.gz".toList

/-- The name of a part: the suffix of the name, which is the only place where the pattern
`\.ndjson(?:\.gz)?$` matches, gets the number before it. -/
def archivePartName (name : Text) (part : ℕ) : Text :=
  let suffix := "-part-".toList ++ padded 6 part ++ ".ndjson.gz".toList
  if Text.endsWith name ".ndjson.gz" then name.take (name.length - 10) ++ suffix
  else if Text.endsWith name ".ndjson" then name.take (name.length - 7) ++ suffix
  else name

/-! ### One invocation -/

/-- The limits of an invocation, and what it takes from the runtime. -/
structure Compaction where
  dateParse : Text → Option ℤ
  gzipSize : Text → ℕ
  /-- `olderThanDays * DAY_MS` -/
  olderThanMs : ℚ
  maxSources : ℕ
  maxArchiveBytes : ℕ
  maxSources_pos : 1 ≤ maxSources
  maxSources_le : maxSources ≤ LEDGER_COMPACT_MAX_SOURCES
  maxArchiveBytes_pos : 1 ≤ maxArchiveBytes
  maxArchiveBytes_le : maxArchiveBytes ≤ LEDGER_COMPACT_MAX_ARCHIVE_BYTES

namespace Compaction

variable (C : Compaction)

/-! ### Selection -/

def stampMs (f : LedgerFile) : Option ℤ := (compactionStamp f.name).bind C.dateParse

def unparseableAge (dir : StateDir) : List LedgerFile :=
  (ledgerRotationEntries dir).filter fun f => (C.stampMs f).isNone

/-- The archives strictly older than the limit. -/
def eligible (dir : StateDir) (now : ℤ) : List LedgerFile :=
  (ledgerRotationEntries dir).filter fun f => (C.stampMs f).any fun ms => decide ((ms : ℚ) < now - C.olderThanMs)

end Compaction

def medianSize (entries : List LedgerFile) : ℕ :=
  ((entries.map LedgerFile.disk).mergeSort (· ≤ ·)).getD (entries.length / 2) 0

/-- An archive far larger than the median rotation: the output of an earlier pass. -/
def mergedArchive (dir : StateDir) (f : LedgerFile) : Bool :=
  decide (MERGED_ARCHIVE_SIZE_FACTOR * medianSize (ledgerRotationEntries dir) < f.disk)

def dayOf (f : LedgerFile) : Text := ((compactionStamp f.name).getD []).take 10

/-- Of how many candidates the day of `f` is. -/
def dayCount (candidates : List LedgerFile) (f : LedgerFile) : ℕ :=
  candidates.countP fun g => dayOf g = dayOf f

structure LedgerCompactSelection where
  sources : List LedgerFile
  eligibleCount : ℕ
  unparseableAge : List LedgerFile
  sizeSkippedCount : ℕ

namespace Compaction

variable (C : Compaction)

/-- `decompressedSizeOf`; decompression stops one byte past the ceiling. -/
def measure (f : LedgerFile) : ℕ :=
  if Text.endsWith f.name ".ndjson.gz" then min f.bytes (C.maxArchiveBytes + 1) else f.disk

/-- The oversized output of an earlier pass that is to be split again. -/
def repair (dir : StateDir) (now : ℤ) : Option LedgerFile :=
  (C.eligible dir now).find? fun f => mergedArchive dir f && decide (C.maxArchiveBytes < C.measure f)

def rotations (dir : StateDir) (now : ℤ) : List LedgerFile :=
  (C.eligible dir now).filter fun f => !mergedArchive dir f

def candidates (dir : StateDir) (now : ℤ) : List LedgerFile :=
  match C.repair dir now with
  | some f => f :: (C.eligible dir now).filter fun g => g.name ≠ f.name
  | none => if C.rotations dir now = [] then C.eligible dir now else C.rotations dir now

/-- The candidates, those of a day with several first. -/
def preferred (dir : StateDir) (now : ℤ) : List LedgerFile :=
  let candidates := C.candidates dir now
  match C.repair dir now with
  | some _ => candidates
  | none =>
      candidates.filter (fun f => decide (1 < dayCount candidates f)) ++
        candidates.filter fun f => dayCount candidates f = 1

def sourceLimit (dir : StateDir) (now : ℤ) : ℕ :=
  let cap := min C.maxSources LEDGER_COMPACT_MAX_SOURCES
  match C.repair dir now with
  | some _ => min cap 2
  | none => if C.rotations dir now = [] then min cap 2 else cap

/-- Take the files of the window while they fit; a first one that is oversized is taken alone.  The
number of files that are left out, and whether the only source is an oversized one. -/
def takeWindow (repairing : Bool) (eligibleCount : ℕ) :
    List LedgerFile → List LedgerFile → ℕ → List LedgerFile × ℕ × Bool
  | [], sources, _ => (sources, 0, false)
  | f :: rest, sources, selectedBytes =>
      if sources = [] ∧ C.maxArchiveBytes < C.measure f then
        ([f], if repairing then eligibleCount - 1 else rest.length, true)
      else if C.maxArchiveBytes < selectedBytes + C.measure f then (sources, rest.length + 1, false)
      else takeWindow repairing eligibleCount rest (sources ++ [f]) (selectedBytes + C.measure f)

def selectLedgerCompactionSources (dir : StateDir) (now : ℤ) : LedgerCompactSelection :=
  let eligibleCount := (C.eligible dir now).length
  let window := (C.preferred dir now).take (C.sourceLimit dir now)
  let (sources, skipped, oversized) := C.takeWindow (C.repair dir now).isSome eligibleCount window [] 0
  -- re-reading a lone part cannot make progress
  let lonePart := decide (0 < skipped) && !oversized && sources.length == 1 &&
    sources.head?.any fun f => isArchivePart f.name
  if lonePart then ⟨[], eligibleCount, C.unparseableAge dir, skipped + 1⟩
  else ⟨sources, eligibleCount, C.unparseableAge dir, skipped⟩

end Compaction

/-! ### Rows -/

/-- The rows of one UTC day. -/
structure DayBucket where
  day : Text
  rows : List Text
  newestMs : ℤ

/-- The non-blank lines of the sources, trimmed. -/
def sourceLines (sources : List LedgerFile) : List Text :=
  ((sources.flatMap fun f => Text.splitBy (· == '\n') f.content).map Text.trim).filter fun line => !line.isEmpty

def distinctRows (sources : List LedgerFile) : List Text := firstSeen some [] (sourceLines sources)

/-- Add a row to the bucket of its day, the last one if it is new. -/
def addToDay (ms : ℤ) (line : Text) : List DayBucket → List DayBucket
  | [] => [⟨(toISOString ms).take 10, [line], ms⟩]
  | b :: days =>
      if b.day = (toISOString ms).take 10 then ⟨b.day, b.rows ++ [line], max b.newestMs ms⟩ :: days
      else b :: addToDay ms line days

/-- Give the rows without a time to the last bucket. -/
def addUndated (undated : List Text) : List DayBucket → List DayBucket
  | [] => []
  | [b] => [{ b with rows := b.rows ++ undated }]
  | b :: days => b :: addUndated undated days

/-- The body of an archive. -/
def bodyOf (rows : List Text) : Text := Text.join ['\n'] rows ++ ['\n']

/-- Cut the rows where the next one would go over the ceiling; `current` are the rows of the open part. -/
def splitRows (maxArchiveBytes : ℕ) : List Text → List Text → ℕ → Except Text (List Text)
  | [], current, _ => .ok (if current = [] then [] else [bodyOf current])
  | row :: rest, current, currentBytes =>
      let rowBytes := Text.byteLength row + 1
      if maxArchiveBytes < rowBytes then
        .error ("one ledger row is ".toList ++ Nat.toDigits 10 rowBytes ++ " bytes, over the ".toList ++
          Nat.toDigits 10 maxArchiveBytes ++ "-byte archive ceiling".toList)
      else if current ≠ [] ∧ maxArchiveBytes < currentBytes + rowBytes then
        (splitRows maxArchiveBytes rest [row] rowBytes).map (bodyOf current :: ·)
      else splitRows maxArchiveBytes rest (current ++ [row]) (currentBytes + rowBytes)

def splitArchiveBody (maxArchiveBytes : ℕ) (body : Text) : Except Text (List Text) :=
  let rows := Text.splitBy (· == '\n') (if Text.endsWith body "\n" then body.dropLast else body)
  if rows = [[]] then .ok [] else splitRows maxArchiveBytes rows [] 0

namespace Compaction

variable (C : Compaction)

/-- The time of a row, `none` if it has none that can be read. -/
def tsOf (line : Text) : Option ℤ :=
  ((Re.seqs [.text "\"ts\":\"", .group 1 (.plus (.cls (· != '"'))), .char '"']).exec line).bind fun m =>
    C.dateParse (m.group 1)

/-- The order of the rows; those without a time are last. -/
def tsLe (a b : Text) : Bool :=
  match C.tsOf a, C.tsOf b with
  | some s, some t => decide (s ≤ t)
  | none, some _ => false
  | _, none => true

/-- File a row that has a time; a row of the future is one of today. -/
def fileRow (now : ℤ) (days : List DayBucket) (line : Text) : List DayBucket :=
  match C.tsOf line with
  | none => days
  | some ts => addToDay (min ts now) line days

/-- The rows by UTC day. -/
def dayBuckets (now : ℤ) (rows : List Text) : List DayBucket :=
  let byDay := rows.foldl (C.fileRow now) []
  addUndated (rows.filter fun line => (C.tsOf line).isNone) (if byDay.isEmpty then [⟨[], [], now⟩] else byDay)

/-- The days of `compactRotations`. -/
def compactedDays (now : ℤ) (sources : List LedgerFile) : List DayBucket :=
  let rows := (distinctRows sources).mergeSort C.tsLe
  if rows.isEmpty then [] else C.dayBuckets now rows

/-! ### Staging -/

/-- The name of a part of the day `d` by its own newest row, if the name of the day has a stamp. -/
def archiveNameForChunk (d : DayBucket) (body : Text) : Option Text :=
  if (rotationStampIso (compactedArchiveName d.newestMs)).isNone then none
  else
    let times := (Text.splitBy (· == '\n') body).filterMap fun line => (C.tsOf line).map (min · d.newestMs)
    some (compactedArchiveName (match times with | [] => d.newestMs | t :: ts => ts.foldl max t))

end Compaction

structure Staged where
  name : Text
  body : Text

/-- `name` may be written: it is new or a selected source, and nothing staged has it. -/
def mayWrite (dir : StateDir) (selected staged : List Text) (name : Text) : Bool :=
  (!dir.has name || selected.contains name) && !staged.contains name

/-- The first free name of a part, from the number `part` on; the first number bounds the search. -/
def freePartName (dir : StateDir) (staged : List Text) (name : Text) : ℕ → ℕ → Text
  | 0, part => archivePartName name part
  | fuel + 1, part =>
      let outputName := archivePartName name part
      if dir.has outputName || staged.contains outputName then freePartName dir staged name fuel (part + 1)
      else outputName

namespace Compaction

variable (C : Compaction)

/-- The name under which part `index` of the day `d` is staged. -/
def outputName (dir : StateDir) (selected staged : List Text) (d : DayBucket) (last : Bool) (index : ℕ)
    (body : Text) : Text :=
  let name := compactedArchiveName d.newestMs
  if last && mayWrite dir selected staged name then name
  else
    let partName := freePartName dir staged name (dir.files.length + staged.length) (index + 1)
    match C.archiveNameForChunk d body with
    | none => partName
    | some timedName => if timedName ≠ name ∧ mayWrite dir selected staged timedName then timedName else partName

/-- Stage the parts of the day `d`, the first of which is part `index`. -/
def stageParts (dir : StateDir) (selected : List Text) (d : DayBucket) : List Text → ℕ → List Staged → List Staged
  | [], _, staged => staged
  | body :: rest, index, staged =>
      let name := C.outputName dir selected (staged.map Staged.name) d rest.isEmpty index body
      stageParts dir selected d rest (index + 1) (staged ++ [⟨name, body⟩])

/-- Stage the days in order. -/
def stageDays (dir : StateDir) (selected : List Text) : List DayBucket → List Staged → Except Text (List Staged)
  | [], staged => .ok staged
  | d :: days, staged =>
      match splitArchiveBody C.maxArchiveBytes (bodyOf d.rows) with
      | .error message => .error message
      | .ok parts => stageDays dir selected days (C.stageParts dir selected d parts 0 staged)

/-! ### A pass -/

/-- The sources that no day of the pass has the name of. -/
def removals (days : List DayBucket) (sources : List LedgerFile) : List Text :=
  (sources.map LedgerFile.name).filter fun name => !(days.map fun d => compactedArchiveName d.newestMs).contains name

end Compaction

/-- A durable step of a pass. -/
inductive CompactStep
  | write (f : LedgerFile)
  | coldStore (name : Text)

def CompactStep.apply (dir : StateDir) : CompactStep → StateDir
  | .write f => dir.write f
  | .coldStore name => dir.remove name

structure LedgerCompactionResult where
  sourceCount : ℕ
  rowsWritten : ℕ
  duplicatesCollapsed : ℕ
  archiveNames : List Text

/-- What a pass reports; `archiveName` is the last of the names. -/
structure CompactReport where
  eligibleCount : ℕ
  unparseableAgeCount : ℕ
  result : LedgerCompactionResult
  sizeSkippedCount : ℕ
  reason : Option Text

structure CompactOutcome where
  dir : StateDir
  exit : ℕ
  report : Option CompactReport
  log : List Text

namespace Compaction

variable (C : Compaction)

/-- The file that a staged part becomes. -/
def stagedFile (s : Staged) : LedgerFile := ⟨s.name, s.body, Text.byteLength s.body, C.gzipSize s.body⟩

def steps (days : List DayBucket) (sources : List LedgerFile) (staged : List Staged) : List CompactStep :=
  staged.map (fun s => .write (C.stagedFile s)) ++ (removals days sources).map .coldStore

def compactionResult (sources : List LedgerFile) (staged : List Staged) : LedgerCompactionResult :=
  let rows := distinctRows sources
  ⟨sources.length, rows.length, (if rows = [] then 0 else (sourceLines sources).length - rows.length),
    staged.map Staged.name⟩

/-- `rmd ledger-compact` after its arguments are read. -/
def ledgerCompactCommand (dryRun : Bool) (now : ℤ) (dir : StateDir) : CompactOutcome :=
  let selection := C.selectLedgerCompactionSources dir now
  let sources := selection.sources
  let selected := sources.map LedgerFile.name
  let days := C.compactedDays now sources
  match C.stageDays dir selected days [] with
  | .error message => ⟨dir, 1, none, ["rmd ledger-compact: cannot read the selected window — ".toList ++ message]⟩
  | .ok staged =>
      let noReduction := !staged.isEmpty && decide (sources.length ≤ staged.length)
      let result := if noReduction then ⟨0, 0, 0, []⟩ else compactionResult sources staged
      let reason := if noReduction then
          some ("no-reduction — ".toList ++ Nat.toDigits 10 sources.length ++
            " source archive(s) would produce ".toList ++ Nat.toDigits 10 staged.length ++ " archive(s)".toList)
        else none
      let report := some ⟨selection.eligibleCount, selection.unparseableAge.length, result,
        selection.sizeSkippedCount, reason⟩
      let log :=
        (if selection.unparseableAge.isEmpty then [] else
          ["rmd ledger-compact: skipped ".toList ++ Nat.toDigits 10 selection.unparseableAge.length ++
            " rotation(s) whose filename age is unreadable".toList]) ++
        (if selection.sizeSkippedCount = 0 then [] else
          ["rmd ledger-compact: deferred ".toList ++ Nat.toDigits 10 selection.sizeSkippedCount ++
            " eligible rotation(s) at the ".toList ++ Nat.toDigits 10 C.maxArchiveBytes ++
            "-byte decompressed archive ceiling".toList])
      if staged.isEmpty || noReduction then ⟨dir, 0, report, log⟩
      else
        match staged.find? fun s => dir.has s.name && !selected.contains s.name with
        | some s => ⟨dir, 1, report,
            log ++ ["rmd ledger-compact: refusing to overwrite unselected archive ".toList ++ s.name]⟩
        | none =>
            if dryRun then ⟨dir, 0, report, log⟩
            else ⟨(C.steps days sources staged).foldl CompactStep.apply dir, 0, report, log⟩

/-- The directory after `n` applied passes, the one numbered `i` at the time `now i`. -/
def passes (now : ℕ → ℤ) (dir : StateDir) : ℕ → StateDir
  | 0 => dir
  | n + 1 => (C.ledgerCompactCommand false (now n) (passes now dir n)).dir

end Compaction

end Remudero.Ledger
