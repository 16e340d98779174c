import Remudero.Lib.FirstSeen
import Remudero.Lib.Json
import Remudero.Lib.Window

/-! # Reading the ledger corpus

The union readers of `lib/ledger-union.ts`: the rotated archives in the order of their names, then
the live file, each line parsed, filtered and delivered once.  `openLedgerUnion` is the streaming
reader, `readLedgerUnionRecordsSync` the synchronous one.  A line is a replay when it was delivered
before: anywhere in the corpus, or, with a window, among the last lines of its step.

A file is the list of its lines.  `parseObject` gives the object a line stands for (`none` when it
does not parse or is not an object), of which a row keeps the fields the readers look at.
`Date.parse` is the parameter `dateParse` (`none` is `NaN`) and `fingerprint` the digest of a
line. -/

namespace Remudero.Corpus

open Remudero.Lib

/-- A field that may name a pull request. -/
inductive PrField where
  | number (n : ℚ)
  | text (t : Text)
  | other
deriving DecidableEq

/-- A parsed row; a text is `none` when the field is absent or not a string. -/
structure LedgerRow where
  taskId : Option Text := none
  runId : Option Text := none
  step : Option Text := none
  ts : Option Text := none
  prUrl : Option Text := none
  prNumber : PrField := .other
  pr : PrField := .other
deriving DecidableEq

structure Archive where
  name : Text
  lines : List Text
deriving DecidableEq

/-- The corpus: the archives in the order of their names, and the live file if there is one. -/
structure Files where
  archives : List Archive
  live : Option (List Text) := none

/-- The options of a union read. -/
structure UnionOptions where
  since : Option Text := none
  step : Option (List Text) := none
  whereRow : LedgerRow → Bool := fun _ => true
  selectRotation : Archive → Bool := fun _ => true
  afterRotation : Option Text := none
  stopAfterRotation : Option Text := none
  dedupeWindowPerStep : Option ℕ := none
  dedupeSeed : List (Text × Text) := []

/-! ### Selecting files -/

def digits (t : Text) : Bool := t.all Char.isDigit

/-- The instant in an archive's name, as the pattern
`^ledger\.(\d{4}-\d{2}-\d{2})T(\d{2})-(\d{2})-(\d{2})-(\d{3})Z\.ndjson(?:\.gz)?$` reads it. -/
def rotationStampIso (name : Text) : Option Text :=
  match name.drop 7 with
  | y₁ :: y₂ :: y₃ :: y₄ :: '-' :: m₁ :: m₂ :: '-' :: d₁ :: d₂ :: 'T' :: h₁ :: h₂ :: '-' :: i₁ :: i₂ ::
      '-' :: s₁ :: s₂ :: '-' :: f₁ :: f₂ :: f₃ :: tail =>
      if "ledger.".toList.isPrefixOf name &&
          digits [y₁, y₂, y₃, y₄, m₁, m₂, d₁, d₂, h₁, h₂, i₁, i₂, s₁, s₂, f₁, f₂, f₃] &&
          (tail == "Z.ndjson".toList || tail == "Z.ndjson.gz".toList) then
        some [y₁, y₂, y₃, y₄, '-', m₁, m₂, '-', d₁, d₂, 'T', h₁, h₂, ':', i₁, i₂, ':', s₁, s₂, '.',
          f₁, f₂, f₃, 'Z']
      else none
  | _ => none

example : rotationStampIso "ledger.2026-10-27T09-30-00-125Z.ndjson.gz".toList =
    some "2026-10-27T09:30:00.125Z".toList := by decide +kernel

variable (parseObject : Text → Option LedgerRow) (dateParse : Text → Option ℤ)
  (fingerprint : Text → Text)

def sinceMs (opts : UnionOptions) : Option ℤ := opts.since.bind dateParse

/-- The archive was cut before the window. -/
def rotationBeforeWindow (archive : Archive) (minimumTs : Option ℤ) : Bool :=
  match minimumTs, (rotationStampIso archive.name).bind dateParse with
  | some minimum, some stamp => decide (stamp < minimum)
  | _, _ => false

/-- The archives up to and with the one a read stops after. -/
def throughStop (stop : Option Text) : List Archive → List Archive
  | [] => []
  | a :: l => if stop = some a.name then [a] else a :: throughStop stop l

/-- The read stops at an archive, so that the live file is not read. -/
def stops (stop : Option Text) (archives : List Archive) : Bool :=
  archives.any fun a => stop = some a.name

theorem throughStop_none (archives : List Archive) : throughStop none archives = archives := by
  induction archives with
  | nil => rfl
  | cons a archives ih => rw [throughStop, if_neg (by simp), ih]

theorem stops_none (archives : List Archive) : stops none archives = false := by
  rw [stops, List.any_eq_false]
  intro a _
  simp

/-- The archives a streaming read may open. -/
def chosenRotations (files : Files) (opts : UnionOptions) : List Archive :=
  ((files.archives.filter fun a => opts.afterRotation.all fun after => decide (after < a.name)).filter
    opts.selectRotation).filter fun a => !rotationBeforeWindow dateParse a (sinceMs dateParse opts)

/-- The lines of the files a streaming read opens. -/
def unionLines (files : Files) (opts : UnionOptions) : List Text :=
  let chosen := chosenRotations dateParse files opts
  let archived := (throughStop opts.stopAfterRotation chosen).flatMap Archive.lines
  if stops opts.stopAfterRotation chosen then archived else archived ++ files.live.getD []

/-! ### Selecting rows -/

def stepMatches (row : LedgerRow) (want : Option (List Text)) : Bool :=
  match want with
  | none => true
  | some steps => row.step.any fun step => steps.contains step

/-- The row is inside the window and of a wanted step; a time that does not parse is inside. -/
def recordMatchesFilters (row : LedgerRow) (opts : UnionOptions) (minimumTs : Option ℤ) : Bool :=
  (match minimumTs with
    | none => true
    | some minimum => row.ts.any fun ts => !(dateParse ts).any fun ms => decide (ms < minimum)) &&
    stepMatches row opts.step

/-- A line that spells no wanted step as `JSON.stringify` does is never parsed. -/
def namesStep (opts : UnionOptions) (line : Text) : Bool :=
  opts.step.all fun steps => steps.any fun step => Text.contains line (Json.quote step)

/-- The row of a line if the read keeps it. -/
def keptRow (opts : UnionOptions) (line : Text) : Option (Text × LedgerRow) :=
  match parseObject line with
  | none => none
  | some row =>
      if recordMatchesFilters dateParse row opts (sinceMs dateParse opts) && opts.whereRow row then
        some (line, row)
      else none

/-- The nonblank lines of a file. -/
def trimmedLines (lines : List Text) : List Text :=
  (lines.map Text.trim).filter fun line => !line.isEmpty

/-- The rows a streaming read considers, with their lines, in order. -/
def unionRows (files : Files) (opts : UnionOptions) : List (Text × LedgerRow) :=
  ((trimmedLines (unionLines dateParse files opts)).filter (namesStep opts)).filterMap
    (keptRow parseObject dateParse opts)

/-! ### Replays -/

/-- The class of a row in a windowed read: its step, or the empty text. -/
def stepKey (row : LedgerRow) : Text := row.step.getD []

/-- The step and the fingerprint under which a windowed read looks a row up. -/
def place (x : Text × LedgerRow) : Text × Text := (stepKey x.2, fingerprint x.1)

/-- One fingerprint of a seed. -/
def seedRing (limit : ℕ) (r : RingBuffer Text) (mark : Text) : RingBuffer Text :=
  if mark ∈ r.seen then r
  else if r.order.length < limit then { r with order := r.order ++ [mark], seen := mark :: r.seen }
  else { r with order := r.order.set r.next mark, seen := mark :: r.seen }

def seedRings (limit : ℕ) (seed : List (Text × Text)) : Text → RingBuffer Text :=
  seed.foldl (fun rings s => Function.update rings s.1 (seedRing limit (rings s.1) s.2)) fun _ => {}

/-- The rows a streaming read delivers, with their lines. -/
def openLedgerUnion (files : Files) (opts : UnionOptions) : List (Text × LedgerRow) :=
  let rows := unionRows parseObject dateParse files opts
  match opts.dedupeWindowPerStep with
  | none => firstSeen (fun x => some x.1) [] rows
  | some limit => (scanRings limit (place fingerprint) (seedRings limit opts.dedupeSeed) rows).1

/-- The rows the synchronous reader delivers, with their lines; it parses every line. -/
def readLedgerUnionRecordsSync (files : Files) (opts : UnionOptions) : List (Text × LedgerRow) :=
  let archived := ((files.archives.filter fun a =>
    !rotationBeforeWindow dateParse a (sinceMs dateParse opts)).filter opts.selectRotation).flatMap
      Archive.lines
  firstSeen (fun x => some x.1) []
    ((trimmedLines (archived ++ files.live.getD [])).filterMap (keptRow parseObject dateParse opts))

end Remudero.Corpus
