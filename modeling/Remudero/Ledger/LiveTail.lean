import Remudero.Ledger.Ndjson
import Remudero.Lib.Lines
import Remudero.Lib.Row
import Remudero.Lib.Transition

/-! # The live ledger tail

`createLiveLedgerTail` of `lib/live-ledger-tail.ts`.  A tail keeps the rows of the complete lines it has
read, the first and the last bytes of these, and the parse of the line that was not ended yet.  A file
with another identity, a file shorter than what was read, and one whose first or last read bytes differ
is read again from its start.

A row is the fields of a JSON object.  `parse` is `JSON.parse` on a line that is not blank (`none` when
it throws), and `dateParse` is `Date.parse`.  A cutoff is `none` for minus infinity.  Arrays are kept in a
heap, since a tail compares and returns them by reference; `rows` and `withPending` are places in it.

`LiveTailSafety.lean` compares a tail with a fresh read over every history of the file. -/

namespace Remudero.Ledger

open Remudero.Lib

def newline : UInt8 := 0x0a

def anchorBytes : ℕ := 64

section rules

variable (dateParse : Text → Option ℤ) (keepUntimed : Bool) (parse : Text → Option Lib.Row)

def rowMs (row : Lib.Row) : Option ℤ := (row.str "ts").bind dateParse

/-- The retention rule. -/
def retained (cutoff : Option ℤ) (row : Lib.Row) : Bool :=
  match rowMs dateParse row with
  | none => keepUntimed
  | some t => cutoff.all fun c => decide (c < t)

/-- The row of a line, if it is not blank and parses. -/
def tentativeRow (text : Text) : Option Lib.Row :=
  if (Text.trim text).isEmpty then none else parse (Text.trim text)

/-- `parseLines`: the rows of a text. -/
def rowsOfText (text : Text) : List Lib.Row := (Text.splitBy isNewline text).filterMap (tentativeRow parse)

end rules

/-! ### A tail -/

structure LiveFile where
  ino : ℕ
  bytes : Bytes
deriving DecidableEq

structure LiveTail where
  identity : Option ℕ
  offset : ℕ
  head : Bytes
  anchor : Bytes
  rows : ℕ
  pendingBytes : Bytes
  pendingRow : Option Lib.Row
  withPending : Option ℕ
  heap : List (List Lib.Row)

namespace LiveTail

/-- The array at a place of the heap. -/
def array (t : LiveTail) (place : ℕ) : List Lib.Row := t.heap.getD place []

def start : LiveTail := ⟨none, 0, [], [], 0, [], none, none, [[]]⟩

def reset (t : LiveTail) : LiveTail :=
  ⟨none, 0, [], [], t.heap.length, [], none, none, t.heap ++ [[]]⟩

/-- A new array for the rows. -/
def setRows (t : LiveTail) (rows : List Lib.Row) : LiveTail :=
  { t with rows := t.heap.length, heap := t.heap ++ [rows] }

end LiveTail

def bytesAt (bytes : Bytes) (start length : ℕ) : Bytes := (bytes.drop start).take length

/-- The place after the last line feed. -/
def lineEnd (chunk : Bytes) : ℕ := chunk.length - (chunk.reverse.takeWhile (· != newline)).length

/-- The first or the last bytes that were read differ. -/
def rewritten (t : LiveTail) (bytes : Bytes) : Bool :=
  decide (0 < t.offset) && (bytesAt bytes 0 t.head.length != t.head ||
    bytesAt bytes (t.offset - t.anchor.length) t.anchor.length != t.anchor)

def refresh (t : LiveTail) (f : LiveFile) : LiveTail :=
  if t.identity ≠ some f.ino || decide (f.bytes.length < t.offset) || rewritten t f.bytes then
    { t.reset with identity := some f.ino }
  else t

section call

variable (dateParse : Text → Option ℤ) (keepUntimed : Bool) (parse : Text → Option Lib.Row)

/-- The complete lines past the offset, and what ages out. -/
def readRows (cutoff : Option ℤ) (t : LiveTail) (f : LiveFile) : LiveTail :=
  let chunk := f.bytes.drop t.offset
  let appended := rowsOfText parse (utf8 (chunk.take (lineEnd chunk)))
  let offset := t.offset + lineEnd chunk
  let t := { t with
    offset := offset
    head := if 0 < offset then bytesAt f.bytes 0 (min anchorBytes offset) else t.head
    anchor := if 0 < offset then bytesAt f.bytes (offset - min anchorBytes offset) (min anchorBytes offset)
      else t.anchor }
  let t := if appended.isEmpty then t else t.setRows (t.array t.rows ++ appended)
  if cutoff.isNone && keepUntimed then t
  else
    let kept := (t.array t.rows).filter (retained dateParse keepUntimed cutoff)
    if kept.length ≠ (t.array t.rows).length then t.setRows kept else t

/-- The line that is not ended yet: `old` is the tail before the rows were read. -/
def readPending (old t : LiveTail) (f : LiveFile) : LiveTail :=
  let chunk := f.bytes.drop old.offset
  let tailBytes := chunk.drop (lineEnd chunk)
  if decide (0 < lineEnd chunk) || tailBytes != old.pendingBytes then
    { t with pendingBytes := tailBytes, pendingRow := tentativeRow parse (utf8 tailBytes), withPending := none }
  else t

/-- The array that is returned. -/
def answer (cutoff : Option ℤ) (before : ℕ) (t : LiveTail) : ℕ × LiveTail :=
  match t.pendingRow with
  | none => (t.rows, t)
  | some row =>
      if retained dateParse keepUntimed cutoff row then
        match t.withPending with
        | some place => if t.rows = before then (place, t) else
            (t.heap.length, { t with withPending := some t.heap.length, heap := t.heap ++ [t.array t.rows ++ [row]] })
        | none => (t.heap.length, { t with withPending := some t.heap.length, heap := t.heap ++ [t.array t.rows ++ [row]] })
      else (t.rows, t)

/-- One call; a missing file reads as no rows. -/
def LiveTail.call (cutoff : Option ℤ) (t : LiveTail) (file : Option LiveFile) : ℕ × LiveTail :=
  match file with
  | none => (t.reset.heap.length, { t.reset with heap := t.reset.heap ++ [[]] })
  | some f =>
      let old := refresh t f
      let read := readRows dateParse keepUntimed parse cutoff old f
      answer dateParse keepUntimed cutoff old.rows (readPending parse old read f)

end call

end Remudero.Ledger
