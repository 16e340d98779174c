import Remudero.Corpus.Read
import Remudero.Lib.Comparators
import Remudero.Lib.Number
import Remudero.Lib.Regex
import Remudero.Lib.Row
import Remudero.Lib.Utf16
import Remudero.Lib.Utf8

/-! # The raw union reads

`readLedgerUnionRawLinesSync` and `readLedgerUnionRawLinesAsync` of `lib/ledger-union.ts`: the lines
of the archives and of the live file as texts, filtered and each one once.  The synchronous reader
scans a file at once, the asynchronous one some lines at a time.

The state directory does not change.  `Io` has what its files and the runtime answer: `readFile` and
`gunzip` are `none` when the call throws, `jsonParse` and `dateParse` likewise, and `number` is the
value of a JSON number that is finite.  A scan goes over the bytes that are left of a buffer.

The main result is `rawLines_async_eq_sync_iff`: exactly when the two readers agree. -/

namespace Remudero.Corpus.Raw

open Remudero.Lib

/-- What the files and the runtime answer. -/
structure Io where
  readdir : Option (List Text)
  existsFile : Text → Bool
  readFile : Text → Option Bytes
  gunzip : Bytes → Option Bytes
  jsonParse : Text → Option Json
  number : Text → Option ℚ
  dateParse : Text → Option ℤ

structure LedgerUnionRawReadOptions where
  since : Option Text := none
  sinceTs : Option Text := none
  step : Option (List Text) := none
  newestFirst : Bool := false
  liveFirst : Bool := false
  maxRotations : Option ℤ := none
  rotationWindowMs : Option ℤ := none
  minRotations : Option ℤ := none
  pattern : Option (Text → Bool) := none
  keep : Option (Text → Bool) := none
  dedupe : Bool := true
  requireArchives : Bool := false
  refuseIncomplete : Bool := false

/-! ### Listing the files -/

inductive LedgerFileForm where
  | gzip | plain
deriving DecidableEq, Repr

structure LedgerCorpusEntry where
  path : Text
  form : LedgerFileForm
deriving DecidableEq, Repr

def ledgerFilename : Text := "ledger.ndjson".toList

def joinPath (stateDir name : Text) : Text := stateDir ++ '/' :: name

def ledgerLivePath (stateDir : Text) : Text := joinPath stateDir ledgerFilename

/-- `<` of JavaScript on texts. -/
def textLE (a b : Text) : Bool := (compare (Text.utf16 a) (Text.utf16 b)).isLE

def ledgerNames (names : List Text) : List Text :=
  names.filter fun n => "ledger.".toList.isPrefixOf n && n != ledgerFilename

def ledgerRotationEntries (names : List Text) (stateDir : Text) : List LedgerCorpusEntry :=
  ((ledgerNames names).filterMap fun n =>
    if ".ndjson.gz".toList.isSuffixOf n then some ⟨joinPath stateDir n, .gzip⟩
    else if ".ndjson".toList.isSuffixOf n then some ⟨joinPath stateDir n, .plain⟩
    else none).mergeSort fun a b => textLE a.path b.path

/-- `.<tag>-<pid>-<uuid>` at the end of a name. -/
def ledgerStageSuffix : Re :=
  .seqs [.char '.', .alt (.text "rotate-tmp") (.text "ledger-compact-tmp"), .char '-', .plus .digit, .char '-',
    .rep 36 (some 36) true (.cls fun c => c.isDigit || ('a' ≤ c && c ≤ 'f') || c == '-'), .stop]

/-- A rotation's own transient files. -/
def isRotationOwnFile (name : Text) : Bool :=
  name == ledgerFilename ++ ".rotate.lock".toList ||
    match (Re.group 0 ledgerStageSuffix).exec name with
    | none => false
    | some m =>
        let base := name.take (name.length - (m.group 0).length)
        base == ledgerFilename || (rotationStampIso base).isSome

inductive AuxiliaryKind where
  | carriedPrefix | retainedSteps
deriving DecidableEq, Repr

structure LedgerAuxiliaryFile where
  path : Text
  kind : AuxiliaryKind
deriving DecidableEq, Repr

def isHexDigit (c : Char) : Bool := c.isDigit || ('a' ≤ c && c ≤ 'f')

section listing

variable (io : Io) (stateDir : Text)

def finiteWhenPresent (row : Lib.Row) (name : String) : Bool :=
  match row.field name with
  | none => true
  | some (.num shown) => (io.number shown).isSome
  | some _ => false

def isValidCarriedPrefixMetadata (raw : Json) : Bool :=
  match raw with
  | .obj row =>
      (match Row.field row "bytes" with
        | some (.num shown) => (io.number shown).any fun v => v.isInt && decide (0 ≤ v ∧ v ≤ (Number.maxSafeInteger : ℚ))
        | _ => false) &&
      (Row.str row "sha256").any (fun t => decide (t.length = 64) && t.all isHexDigit) &&
      finiteWhenPresent io row "rateBytesPerHour" && finiteWhenPresent io row "effectiveCeilingBytes"
  | _ => false

def isValidRetainedStepsMetadata (raw : Json) : Bool :=
  match raw with
  | .obj row =>
      match Row.field row "steps" with
      | some (.arr items) => items.all fun j => match j with
          | .str _ => true
          | _ => false
      | _ => false
  | _ => false

/-- The metadata files a producer writes beside the ledger. -/
def ledgerMetadataFiles : List (Text × AuxiliaryKind × (Json → Bool)) :=
  [(ledgerFilename ++ ".carried.json".toList, .carriedPrefix, isValidCarriedPrefixMetadata io),
    (ledgerFilename ++ ".retained-steps.json".toList, .retainedSteps, isValidRetainedStepsMetadata)]

def readsAsValidMetadata (path : Text) (valid : Json → Bool) : Bool :=
  ((io.readFile path).bind fun bytes => io.jsonParse (utf8 bytes)).any valid

structure LedgerCorpusSnapshot where
  rotations : List LedgerCorpusEntry
  unclassified : List Text
  auxiliary : List LedgerAuxiliaryFile

def listedLedgerFiles : LedgerCorpusSnapshot :=
  let names := io.readdir.getD []
  let rotations := ledgerRotationEntries names stateDir
  let valid := (ledgerMetadataFiles io).filter fun m =>
    names.contains m.1 && readsAsValidMetadata io (joinPath stateDir m.1) m.2.2
  { rotations := rotations
    auxiliary := valid.map fun m => ⟨joinPath stateDir m.1, m.2.1⟩
    unclassified :=
      ((((ledgerNames names).filter fun n => !(valid.map Prod.fst).contains n).filter fun n =>
        !isRotationOwnFile n).map (joinPath stateDir)).filter fun p => !(rotations.map (·.path)).contains p }

end listing

/-! ### Which archives are read -/

/-- `slice(0, n)`. -/
def sliceTo {α : Type} (n : ℤ) (l : List α) : List α :=
  if n < 0 then l.take (l.length + n).toNat else l.take n.toNat

def basename (path : Text) : Text := (Text.splitBy (· == '/') path).getLastD []

section selection

variable (io : Io) (opts : LedgerUnionRawReadOptions)

def sinceMs : Option ℤ := (opts.sinceTs.or opts.since).bind io.dateParse

def stampMsOf (entry : LedgerCorpusEntry) : Option ℤ := (rotationStampIso (basename entry.path)).bind io.dateParse

def rotationBeforeWindow (entry : LedgerCorpusEntry) (minimumTs : Option ℤ) : Bool :=
  match minimumTs, stampMsOf io entry with
  | some minimum, some stamp => decide (stamp < minimum)
  | _, _ => false

def withinRotationWindow (entries : List LedgerCorpusEntry) (windowMs minRotations : ℤ) : List LedgerCorpusEntry :=
  match (entries.filterMap (stampMsOf io)).max? with
  | none => entries
  | some latest =>
      let newest := sliceTo minRotations ((entries.map (·.path)).mergeSort textLE).reverse
      entries.filter fun entry =>
        newest.contains entry.path || !(stampMsOf io entry).any fun ms => decide (ms < latest - windowMs)

def orderedEntries (rotations : List LedgerCorpusEntry) : List LedgerCorpusEntry :=
  let ordered := if opts.newestFirst then rotations.mergeSort fun a b => textLE b.path a.path else rotations
  let windowed := match opts.rotationWindowMs with
    | none => ordered
    | some windowMs => withinRotationWindow io ordered windowMs (opts.minRotations.getD 0)
  match opts.maxRotations with
  | none => windowed
  | some n => sliceTo n windowed

/-! ### Collecting lines -/

structure Collected where
  seen : List Text := []
  rawLines : List Text := []
deriving DecidableEq, Repr

/-- `rawLineStepFilter`: a text that names one of the steps and parses to a row of that step. -/
def rawLineStepFilter (want : List Text) (line : Text) : Bool :=
  (want.any fun step => Text.contains line (Json.quote step)) &&
    match io.jsonParse line with
    | some (.obj row) => (Row.str row "step").any want.contains
    | _ => false

def accepts (line : Text) : Bool :=
  !line.isEmpty && opts.pattern.all (· line) && opts.step.all (rawLineStepFilter io · line) && opts.keep.all (· line)

/-- One line of a buffer. -/
def collect (c : Collected) (bytes : Bytes) : Collected :=
  let line := Text.trim (utf8 bytes)
  if bytes.isEmpty || !accepts io opts line then c
  else if !opts.dedupe then { c with rawLines := c.rawLines ++ [line] }
  else if c.seen.contains line then c
  else { seen := line :: c.seen, rawLines := c.rawLines ++ [line] }

def lineOf (rest : Bytes) : Bytes := rest.takeWhile (· != 0x0a)

/-- The bytes after the first line and its line feed. -/
def afterLine (rest : Bytes) : Bytes := (rest.dropWhile (· != 0x0a)).drop 1

/-- At most `maxLines` lines of the bytes that are left.  Every round takes a byte at least, so the
first argument bounds the rounds. -/
def scanLoop : ℕ → Option ℕ → Bytes → Collected → Collected × Bytes
  | 0, _, rest, c => (c, rest)
  | rounds + 1, maxLines, rest, c =>
      if rest.isEmpty || maxLines == some 0 then (c, rest)
      else scanLoop rounds (maxLines.map (· - 1)) (afterLine rest) (collect io opts c (lineOf rest))

def scan (maxLines : Option ℕ) (rest : Bytes) (c : Collected) : Collected × Bytes :=
  scanLoop io opts rest.length maxLines rest c

/-- The lines of a buffer, `perTurn` of them at a time. -/
def sliceLoop (perTurn : ℕ+) : ℕ → Bytes → Collected → Collected
  | 0, _, c => c
  | rounds + 1, rest, c =>
      if rest.isEmpty then c
      else
        let next := scan io opts (some perTurn) rest c
        sliceLoop perTurn rounds next.2 next.1

def scanInSlices (perTurn : ℕ+) (buf : Bytes) (c : Collected) : Collected :=
  sliceLoop io opts perTurn buf.length buf c

end selection

/-! ### The readers -/

structure LedgerUnionRawRead where
  stateDir : Text
  archiveFiles : List Text
  archiveCount : ℕ
  liveFileRead : Bool
  unread : List Text
  unclassified : List Text
  auxiliary : List LedgerAuxiliaryFile
  ok : Bool
  rawLines : List Text
  filesRead : ℕ
deriving DecidableEq, Repr

/-- What a read has collected so far. -/
structure Reading where
  collected : Collected := {}
  unread : List Text := []
  filesRead : ℕ := 0
deriving DecidableEq, Repr

section readers

variable (io : Io) (opts : LedgerUnionRawReadOptions) (stateDir : Text)

/-- One archive, with the way its lines are scanned.  A scan does not throw, so it does not matter
whether it stands inside the error handler. -/
def readEntry (scanAll : Bytes → Collected → Collected) (r : Reading) (entry : LedgerCorpusEntry) : Reading :=
  if rotationBeforeWindow io entry (sinceMs io opts) then r
  else
    match io.readFile entry.path with
    | none => { r with unread := r.unread ++ [entry.path] }
    | some buf =>
        let read := { r with filesRead := r.filesRead + 1 }
        match entry.form with
        | .plain => { read with collected := scanAll buf r.collected }
        | .gzip =>
            match io.gunzip buf with
            | none => { read with unread := r.unread ++ [entry.path] }
            | some bytes => { read with collected := scanAll bytes r.collected }

def readEntrySync : Reading → LedgerCorpusEntry → Reading := readEntry io opts fun buf c => (scan io opts none buf c).1

def readLiveSync (r : Reading) : Reading :=
  if io.existsFile (ledgerLivePath stateDir) then
    let read := { r with filesRead := r.filesRead + 1 }
    match io.readFile (ledgerLivePath stateDir) with
    | none => read
    | some buf => { read with collected := (scan io opts none buf r.collected).1 }
  else r

def readEntryAsync (perTurn : ℕ+) : Reading → LedgerCorpusEntry → Reading := readEntry io opts (scanInSlices io opts perTurn)

def readLiveAsync (perTurn : ℕ+) (r : Reading) : Reading :=
  if io.existsFile (ledgerLivePath stateDir) then
    let read := { r with filesRead := r.filesRead + 1 }
    match io.readFile (ledgerLivePath stateDir) with
    | none => if opts.refuseIncomplete then { read with unread := r.unread ++ [ledgerLivePath stateDir] } else read
    | some buf => { read with collected := scanInSlices io opts perTurn buf r.collected }
  else r

/-- The frame of both readers around their two ways to read a file. -/
def readLedgerUnionRawLines (readEntry : Reading → LedgerCorpusEntry → Reading) (readLive : Reading → Reading) :
    LedgerUnionRawRead :=
  let listed := listedLedgerFiles io stateDir
  let archiveFiles := listed.rotations.map (·.path)
  let start : Reading :=
    { unread := if io.readdir.isNone && opts.refuseIncomplete then [stateDir] else [] }
  let liveFileRead := io.existsFile (ledgerLivePath stateDir)
  if opts.requireArchives && archiveFiles.isEmpty then
    { stateDir := stateDir, archiveFiles := archiveFiles, archiveCount := 0, liveFileRead := liveFileRead,
      unread := start.unread, unclassified := listed.unclassified, auxiliary := listed.auxiliary, ok := false,
      rawLines := [], filesRead := start.filesRead }
  else
    let toRead := orderedEntries io opts listed.rotations
    let first := if opts.liveFirst then readLive start else start
    let archived := toRead.foldl readEntry first
    let last := if opts.liveFirst then archived else readLive archived
    let ok := !(opts.refuseIncomplete && !last.unread.isEmpty)
    { stateDir := stateDir, archiveFiles := archiveFiles, archiveCount := archiveFiles.length,
      liveFileRead := liveFileRead, unread := last.unread, unclassified := listed.unclassified,
      auxiliary := listed.auxiliary, ok := ok, rawLines := if ok then last.collected.rawLines else [],
      filesRead := last.filesRead }

def readLedgerUnionRawLinesSync : LedgerUnionRawRead :=
  readLedgerUnionRawLines io opts stateDir (readEntrySync io opts) (readLiveSync io opts stateDir)

def readLedgerUnionRawLinesAsync (perTurn : ℕ+) : LedgerUnionRawRead :=
  readLedgerUnionRawLines io opts stateDir (readEntryAsync io opts perTurn) (readLiveAsync io opts stateDir perTurn)

end readers

/-! ### Slices -/

section slices

variable {io : Io} {opts : LedgerUnionRawReadOptions}

theorem length_afterLine {rest : Bytes} (h : rest ≠ []) : (afterLine rest).length < rest.length := by
  have hpos := List.length_pos_of_ne_nil h
  have hle := (List.dropWhile_suffix (l := rest) (· != 0x0a)).length_le
  rw [afterLine, List.length_drop]
  omega

/-- More rounds than bytes do not matter. -/
theorem scanLoop_eq_scan {rounds : ℕ} (maxLines : Option ℕ) (rest : Bytes) (c : Collected) (h : rest.length ≤ rounds) :
    scanLoop io opts rounds maxLines rest c = scan io opts maxLines rest c := by
  have hany : ∀ n m maxLines rest c, rest.length ≤ n → rest.length ≤ m →
      scanLoop io opts n maxLines rest c = scanLoop io opts m maxLines rest c := by
    intro n
    induction n with
    | zero =>
        intro m maxLines rest c hn hm
        obtain rfl := List.length_eq_zero_iff.mp (Nat.le_zero.mp hn)
        cases m <;> rfl
    | succ n ih =>
        intro m maxLines rest c hn hm
        cases m with
        | zero =>
            obtain rfl := List.length_eq_zero_iff.mp (Nat.le_zero.mp hm)
            rfl
        | succ m =>
            rw [scanLoop, scanLoop]
            split
            · rfl
            · next hgo =>
                have hne : rest ≠ [] := by
                  rintro rfl
                  simp at hgo
                have hlt := length_afterLine hne
                exact ih m _ _ _ (by omega) (by omega)
  exact hany rounds rest.length maxLines rest c h le_rfl

theorem scan_nil (maxLines : Option ℕ) (c : Collected) : scan io opts maxLines [] c = (c, []) := rfl

theorem scan_zero (rest : Bytes) (c : Collected) : scan io opts (some 0) rest c = (c, rest) := by
  cases rest with
  | nil => rfl
  | cons b rest => simp [scan, scanLoop]

/-- One round. -/
theorem scan_of_ne_nil {maxLines : Option ℕ} {rest : Bytes} (c : Collected) (h : rest ≠ []) (hmax : maxLines ≠ some 0) :
    scan io opts maxLines rest c =
      scan io opts (maxLines.map (· - 1)) (afterLine rest) (collect io opts c (lineOf rest)) := by
  have hlt := length_afterLine h
  obtain ⟨n, hn⟩ : ∃ n, rest.length = n + 1 := ⟨rest.length - 1, by omega⟩
  have hgo : ¬ (rest.isEmpty || maxLines == some 0) = true := by simp [h, hmax]
  rw [scan, hn, scanLoop, if_neg hgo]
  exact scanLoop_eq_scan _ _ _ (by omega)

/-- A scan may stop after some lines and go on from there. -/
theorem scan_resume (n : ℕ) (rest : Bytes) (c : Collected) :
    scan io opts none (scan io opts (some n) rest c).2 (scan io opts (some n) rest c).1 = scan io opts none rest c := by
  induction n generalizing rest c with
  | zero => rw [scan_zero]
  | succ n ih =>
      by_cases h : rest = []
      · subst h
        rfl
      · rw [scan_of_ne_nil c h (by simp), scan_of_ne_nil c h (by simp)]
        exact ih (afterLine rest) (collect io opts c (lineOf rest))

theorem length_scan_le (maxLines : Option ℕ) (rest : Bytes) (c : Collected) :
    (scan io opts maxLines rest c).2.length ≤ rest.length := by
  induction hn : rest.length using Nat.strong_induction_on generalizing maxLines rest c with
  | _ n ih =>
      by_cases h : rest = []
      · subst h
        simp [scan_nil]
      · by_cases hmax : maxLines = some 0
        · subst hmax
          rw [scan_zero, hn]
        · have hlt := length_afterLine h
          rw [scan_of_ne_nil c h hmax]
          exact (ih _ (by omega) _ (afterLine rest) _ rfl).trans (by omega)

theorem scanInSlices_eq (perTurn : ℕ+) (buf : Bytes) (c : Collected) :
    scanInSlices io opts perTurn buf c = (scan io opts none buf c).1 := by
  have hslices : ∀ rounds rest c, rest.length ≤ rounds →
      sliceLoop io opts perTurn rounds rest c = (scan io opts none rest c).1 := by
    intro rounds
    induction rounds with
    | zero =>
        intro rest c h
        obtain rfl := List.length_eq_zero_iff.mp (Nat.le_zero.mp h)
        rfl
    | succ rounds ih =>
        intro rest c h
        rw [sliceLoop]
        by_cases hrest : rest = []
        · subst hrest
          rfl
        · have hlt := length_afterLine hrest
          have hshort : (scan io opts (some (perTurn : ℕ)) rest c).2.length ≤ rounds := by
            have hpos : (some (perTurn : ℕ) : Option ℕ) ≠ some 0 := by simp
            rw [scan_of_ne_nil c hrest hpos]
            exact (length_scan_le _ _ _).trans (by omega)
          have hgo : ¬ rest.isEmpty = true := by simp [hrest]
          rw [if_neg hgo, ih _ _ hshort, scan_resume]
  exact hslices buf.length buf c le_rfl

theorem readEntryAsync_eq (perTurn : ℕ+) : readEntryAsync io opts perTurn = readEntrySync io opts := by
  unfold readEntryAsync readEntrySync
  congr 1
  funext buf c
  exact scanInSlices_eq perTurn buf c

end slices

/-! ### When the readers agree -/

/-- The live file is there, cannot be read, and is to be read by a caller that refuses an incomplete
union. -/
def LiveRefused (io : Io) (opts : LedgerUnionRawReadOptions) (stateDir : Text) : Prop :=
  io.existsFile (ledgerLivePath stateDir) = true ∧ io.readFile (ledgerLivePath stateDir) = none ∧
    opts.refuseIncomplete = true ∧
    ¬ (opts.requireArchives = true ∧ (listedLedgerFiles io stateDir).rotations = [])

section agreement

variable {io : Io} {opts : LedgerUnionRawReadOptions} {stateDir : Text} {perTurn : ℕ+}

theorem readLiveAsync_eq (r : Reading)
    (h : ¬ (io.existsFile (ledgerLivePath stateDir) = true ∧ io.readFile (ledgerLivePath stateDir) = none ∧
      opts.refuseIncomplete = true)) :
    readLiveAsync io opts stateDir perTurn r = readLiveSync io opts stateDir r := by
  unfold readLiveAsync readLiveSync
  split
  · next hexists =>
      cases hread : io.readFile (ledgerLivePath stateDir) with
      | some buf => simp only [scanInSlices_eq]
      | none =>
          have hrefuse : ¬ opts.refuseIncomplete = true := fun hr => h ⟨hexists, hread, hr⟩
          simp only [hrefuse, Bool.false_eq_true, if_false]
  · rfl

/-- An archive adds the same unread paths to every reading. -/
theorem unread_readEntry (entry : LedgerCorpusEntry) :
    ∃ more, ∀ r : Reading, (readEntrySync io opts r entry).unread = r.unread ++ more := by
  unfold readEntrySync readEntry
  split
  · exact ⟨[], fun r => by simp⟩
  · split
    · exact ⟨[entry.path], fun r => rfl⟩
    · split
      · exact ⟨[], fun r => by simp⟩
      · split
        · exact ⟨[entry.path], fun r => rfl⟩
        · exact ⟨[], fun r => by simp⟩

theorem unread_archived (entries : List LedgerCorpusEntry) :
    ∃ more, ∀ r : Reading, (entries.foldl (readEntrySync io opts) r).unread = r.unread ++ more := by
  induction entries with
  | nil => exact ⟨[], fun r => by simp⟩
  | cons entry entries ih =>
      obtain ⟨first, hfirst⟩ := @unread_readEntry io opts entry
      obtain ⟨later, hlater⟩ := ih
      refine ⟨first ++ later, fun r => ?_⟩
      rw [List.foldl_cons, hlater, hfirst, List.append_assoc]

theorem unread_readLiveSync (r : Reading) : (readLiveSync io opts stateDir r).unread = r.unread := by
  unfold readLiveSync
  split
  · split <;> rfl
  · rfl

theorem unread_readLiveAsync (r : Reading) (h : LiveRefused io opts stateDir) :
    (readLiveAsync io opts stateDir perTurn r).unread = r.unread ++ [ledgerLivePath stateDir] := by
  obtain ⟨hexists, hread, hrefuse, -⟩ := h
  simp [readLiveAsync, hexists, hread, hrefuse]

/-- The readers disagree on the unread files when the live file is refused. -/
theorem unread_async_ne_sync (h : LiveRefused io opts stateDir) :
    (readLedgerUnionRawLinesAsync io opts stateDir perTurn).unread ≠
      (readLedgerUnionRawLinesSync io opts stateDir).unread := by
  intro heq
  have hreads : ¬ (opts.requireArchives && ((listedLedgerFiles io stateDir).rotations.map (·.path)).isEmpty) = true := by
    simpa using h.2.2.2
  have hlength := congrArg List.length heq
  obtain ⟨more, hmore⟩ := @unread_archived io opts (orderedEntries io opts (listedLedgerFiles io stateDir).rotations)
  simp only [readLedgerUnionRawLinesAsync, readLedgerUnionRawLinesSync, readLedgerUnionRawLines, if_neg hreads,
    readEntryAsync_eq] at hlength
  split at hlength
  · rw [hmore, hmore, unread_readLiveSync, unread_readLiveAsync _ h] at hlength
    simp only [List.length_append, List.length_singleton] at hlength
    omega
  · rw [unread_readLiveSync, unread_readLiveAsync _ h, hmore] at hlength
    simp only [List.length_append, List.length_singleton] at hlength
    omega

theorem async_eq_sync (h : ¬ LiveRefused io opts stateDir) :
    readLedgerUnionRawLinesAsync io opts stateDir perTurn = readLedgerUnionRawLinesSync io opts stateDir := by
  unfold readLedgerUnionRawLinesAsync readLedgerUnionRawLinesSync
  rw [readEntryAsync_eq]
  by_cases hreads : (opts.requireArchives && ((listedLedgerFiles io stateDir).rotations.map (·.path)).isEmpty) = true
  · simp only [readLedgerUnionRawLines, hreads, if_true]
  · have hlive : readLiveAsync io opts stateDir perTurn = readLiveSync io opts stateDir := by
      funext r
      apply readLiveAsync_eq
      rintro ⟨hexists, hread, hrefuse⟩
      exact h ⟨hexists, hread, hrefuse, by simpa using hreads⟩
    rw [hlive]

end agreement

/-- The asynchronous read is the synchronous one for every slice size, unless the live file is there,
cannot be read, and the caller refuses an incomplete union. -/
theorem rawLines_async_eq_sync_iff (io : Io) (opts : LedgerUnionRawReadOptions) (stateDir : Text) (perTurn : ℕ+) :
    readLedgerUnionRawLinesAsync io opts stateDir perTurn = readLedgerUnionRawLinesSync io opts stateDir ↔
      ¬ LiveRefused io opts stateDir :=
  ⟨fun heq h => unread_async_ne_sync h (congrArg (·.unread) heq), async_eq_sync⟩

/-- A state directory with a live file only, which cannot be read. -/
def unreadableLive : Io where
  readdir := some ["ledger.ndjson".toList]
  existsFile := fun _ => true
  readFile := fun _ => none
  gunzip := fun _ => none
  jsonParse := fun _ => none
  number := fun _ => none
  dateParse := fun _ => none

/-- The asynchronous read of it names the live file as unread, the synchronous one does not. -/
theorem unreadable_live_splits_readers :
    ¬ ∀ (io : Io) (opts : LedgerUnionRawReadOptions) (stateDir : Text) (perTurn : ℕ+),
      let async := readLedgerUnionRawLinesAsync io opts stateDir perTurn
      let sync := readLedgerUnionRawLinesSync io opts stateDir
      async.rawLines = sync.rawLines ∧ async.unread = sync.unread ∧ async.ok = sync.ok ∧
        async.archiveCount = sync.archiveCount ∧ async.filesRead = sync.filesRead := by
  intro h
  have hunread := (h unreadableLive { refuseIncomplete := true } "s".toList 1).2.1
  exact unread_async_ne_sync ⟨rfl, rfl, rfl, fun hboth => Bool.false_ne_true hboth.1⟩ hunread

end Remudero.Corpus.Raw
