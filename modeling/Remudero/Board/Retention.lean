import Remudero.Board.Rules

/-! # Row retention of the board

`offer`, `release`, `releasePastWindows`, `place`, `sweepRepeatOf`, `compact` and `ingest` of
`createBoardProjection` (`lib/board-projection.ts`), for a board that does not keep every row and has no
stand-ins.  A row is an object; its identity is the number under which it was offered.

For each rule there is what it holds under each key, and for each row the number of rules that hold it.
A row is offered to every rule once, when it arrives; when the last rule lets it go it is dropped, and
the next compaction takes it out of the rows.  `update` moves the readers' time, which never goes back,
and ingests one chunk of facts; where the chunk ends and whether it was the last one is up to the clock
and the store, so it is part of the input. -/

namespace Remudero.Board

open Remudero.Lib

def BOARD_UNREAD_STEPS : List String := ["sweep.pass", "sweep.summary", "incident.event", "main.health.observed"]

def BOARD_ROW_UNREAD_FIELDS : List String :=
  ["question", "benchmark_run", "stand_down_reason", "worker_assignment", "decision_verdict", "stderr_excerpt",
    "review_input_digest", "proof_exec", "changed_paths", "evaluator_provenance", "reviewer_code_provenance"]

def withoutUnreadFields (row : Row) : Row :=
  row.filter fun field => !(BOARD_ROW_UNREAD_FIELDS.map String.toList).contains field.1

/-- A row of the fact table. -/
structure Fact where
  tsMs : ℤ
  step : Text
  row : Row

/-- A row on the board with its order. -/
structure BoardRow where
  ins : ℕ
  tsMs : ℤ
  row : Row

/-- `ordCompare(a, b) < 0`. -/
def BoardRow.before (a b : BoardRow) : Bool := decide (a.tsMs < b.tsMs ∨ a.tsMs = b.tsMs ∧ a.ins < b.ins)

/-! ### What a rule holds under a key -/

structure RunHeld where
  anchor : Option BoardRow
  members : List BoardRow

/-- One row, rows in the order in which they came, or a run. -/
abbrev HeldOf : RetentionKind → Type
  | .newest => BoardRow
  | .first => BoardRow
  | .all => List BoardRow
  | .run => RunHeld
  | .asof => List BoardRow

def HeldOf.rows : (kind : RetentionKind) → HeldOf kind → List BoardRow
  | .newest, (row : BoardRow) => [row]
  | .first, (row : BoardRow) => [row]
  | .all, (rows : List BoardRow) => rows
  | .run, (held : RunHeld) => held.anchor.toList ++ held.members
  | .asof, (rows : List BoardRow) => rows

/-- What a rule holds under a key after it was offered a row, the rows it lets go, and whether it holds
the row. -/
structure Taken (kind : RetentionKind) where
  held : HeldOf kind
  letGo : List BoardRow
  holds : Bool

def isRunStart (r : BoardRow) : Bool := hasStep r.row "run.start"

section

variable (dateParse : Text → Option ℤ)

/-- `Date.parse(r.ts) <= now`. -/
def upTo (now : ℤ) (r : BoardRow) : Bool := (tsTime dateParse r.row).any fun t => decide (t ≤ now)

/-- The row with the latest time, the last of those with the same. -/
def latestOf (rows : List BoardRow) : Option BoardRow :=
  rows.foldl (fun latest r =>
    match latest with
    | none => some r
    | some a => if (tsTime dateParse a.row).getD 0 ≤ (tsTime dateParse r.row).getD 0 then some r else some a) none

/-- Whether an `asof` rule keeps `r` of the rows: it is the latest up to now, or after now. -/
def asofKeeps (now : ℤ) (rows : List BoardRow) (r : BoardRow) : Bool :=
  !upTo dateParse now r || (latestOf dateParse (rows.filter (upTo dateParse now))).any fun latest => latest.ins = r.ins

/-- Offer `r` to a rule that holds the best row. -/
def takeOne (better : BoardRow → BoardRow → Bool) (r : BoardRow) : Option BoardRow → BoardRow × List BoardRow × Bool
  | none => (r, [], true)
  | some was => if better r was then (r, [was], true) else (was, [], false)

def newer (a b : BoardRow) : Bool := b.before a

def earlier (a b : BoardRow) : Bool := a.before b

/-- Offer `r` to a rule that holds a run: a `run.start` that is not before the anchor takes its place, and
the members before it are let go; another row is held if there is an anchor before it. -/
def takeRun (r : BoardRow) (run : RunHeld) : Taken .run :=
  if isRunStart r then
    match run.anchor with
    | none =>
        ⟨(⟨some r, run.members.filter fun m => r.before m⟩ : RunHeld),
          run.members.filter fun m => !r.before m, true⟩
    | some anchor =>
        if r.before anchor then ⟨run, [], false⟩
        else ⟨(⟨some r, run.members.filter fun m => r.before m⟩ : RunHeld),
          anchor :: run.members.filter fun m => !r.before m, true⟩
  else if run.anchor.any fun anchor => anchor.before r then
    ⟨(⟨run.anchor, run.members ++ [r]⟩ : RunHeld), [], true⟩
  else ⟨run, [], false⟩

/-- Offer `r` to an `asof` rule. -/
def takeAsof (now : ℤ) (r : BoardRow) (rows : List BoardRow) : Taken .asof :=
  let keeps := asofKeeps dateParse now (rows ++ [r])
  ⟨((rows ++ [r]).filter keeps : List BoardRow), rows.filter fun a => !keeps a, keeps r⟩

/-- Offer `r` to a rule of a kind that holds `was` under the key of `r`. -/
def takeRow (now : ℤ) (r : BoardRow) : (kind : RetentionKind) → Option (HeldOf kind) → Taken kind
  | .newest, was =>
      let (row, letGo, holds) := takeOne newer r was
      ⟨row, letGo, holds⟩
  | .first, was =>
      let (row, letGo, holds) := takeOne earlier r was
      ⟨row, letGo, holds⟩
  | .all, was => ⟨(was.getD [] ++ [r] : List BoardRow), [], true⟩
  | .run, was => takeRun r (was.getD ⟨none, []⟩)
  | .asof, was => takeAsof dateParse now r (was.getD [])

/-! ### Rules with what they hold -/

structure RuleState where
  rule : BoardRetentionRule
  held : Record RetentionKey (HeldOf rule.kind)

/-- A rule after an offer or a release, with the rows it lets go. -/
structure Offered where
  state : RuleState
  letGo : List BoardRow
  holds : Bool

namespace RuleState

def start (rule : BoardRetentionRule) : RuleState := ⟨rule, ∅⟩

def offerRow (st : RuleState) (now : ℤ) (r : BoardRow) (facts : BoardRowFacts) : Offered :=
  match st.rule.keyOf dateParse r.row facts with
  | none => ⟨st, [], false⟩
  | some key =>
      if st.rule.past now key then ⟨st, [], false⟩
      else
        let taken := takeRow dateParse now r st.rule.kind (st.held.get? key)
        ⟨⟨st.rule, st.held.set key taken.held⟩, taken.letGo, taken.holds⟩

/-- What is held under a key of an `asof` rule when the readers' time is `now`, and what is let go. -/
def settle (now : ℤ) (kind : RetentionKind) (held : HeldOf kind) : HeldOf kind × List BoardRow :=
  match kind, held with
  | .asof, (rows : List BoardRow) =>
      ((rows.filter (asofKeeps dateParse now rows) : List BoardRow),
        rows.filter fun r => !asofKeeps dateParse now rows r)
  | _, held => (held, [])

/-- Let go the rows of a window that is over; only single rows and lists are kept with their window. -/
def pastKey (st : RuleState) (now : ℤ) (key : RetentionKey) : Bool :=
  match st.rule.kind with
  | .run | .asof => false
  | _ => st.rule.past now key

def releasePast (st : RuleState) (now : ℤ) : RuleState × List BoardRow :=
  let settled := st.held.mapValues fun held => (settle dateParse now st.rule.kind held).1
  (⟨st.rule, settled.filter fun key => !st.pastKey now key⟩,
    st.held.entries.flatMap (fun e => (settle dateParse now st.rule.kind e.2).2) ++
      (settled.filter (st.pastKey now)).entries.flatMap fun e => HeldOf.rows st.rule.kind e.2)

end RuleState

end

/-! ### The board -/

structure BoardState where
  /-- the readers' time, once there was an update -/
  readerNowMs : Option ℤ
  /-- a fact was read -/
  begun : Bool
  bulkOpen : Bool
  bulkOutOfOrder : Bool
  ins : ℕ
  states : List RuleState
  /-- how many rules hold a row -/
  kept : Record ℕ ℕ
  dropped : List ℕ
  /-- the rows, without the sentinel -/
  rows : List BoardRow
  /-- by PR, its newest disposition -/
  lastDisposition : Record Text (BoardRow × Option Json)
  /-- the judgement of a kept disposition -/
  sweepRepeats : Record ℕ Bool

namespace BoardState

def start (rules : List BoardRetentionRule) : BoardState :=
  ⟨none, false, false, false, 0, rules.map RuleState.start, ∅, [], [], ∅, ∅⟩

/-- One rule less holds the row. -/
def release (b : BoardState) (n : ℕ) : BoardState :=
  match b.kept.get? n with
  | none => b
  | some holds =>
      if 1 < holds then { b with kept := b.kept.set n (holds - 1) }
      else { b with kept := b.kept.filter (· ≠ n), dropped := b.dropped ++ [n] }

def releaseRows (b : BoardState) (rows : List BoardRow) : BoardState := rows.foldl (fun b r => b.release r.ins) b

/-- Place a row after those of its time or before it; a bulk load appends. -/
def place (b : BoardState) (r : BoardRow) (bulk : Bool) : BoardState :=
  if bulk then { b with rows := b.rows ++ [r] }
  else { b with rows := b.rows.rdropWhile (fun a => r.tsMs < a.tsMs) ++ r :: b.rows.rtakeWhile fun a => r.tsMs < a.tsMs }

/-- Take the dropped rows out. -/
def compact (b : BoardState) : BoardState :=
  if b.dropped.isEmpty then b
  else { b with rows := b.rows.filter (fun r => !b.dropped.contains r.ins), dropped := [] }

end BoardState

/-- A row of a sweep disposition of a PR: the PR. -/
def dispositionPr (row : Row) : Option Text := keyIf (hasStep row "sweep.disposed") (prKey row)

namespace BoardState

/-- The judgement of a row, and the newest dispositions after it. -/
def sweepRepeatOf (b : BoardState) (r : BoardRow) : Bool × Record Text (BoardRow × Option Json) :=
  match dispositionPr r.row with
  | none => (false, b.lastDisposition)
  | some pr =>
      let disposition := r.row.field "disposition"
      match b.lastDisposition.get? pr with
      | none => (false, b.lastDisposition.set pr (r, disposition))
      | some last => (Json.strictEq last.2 disposition,
          if last.1.before r then b.lastDisposition.set pr (r, disposition) else b.lastDisposition)

variable (dateParse : Text → Option ℤ)

/-- Offer a row to every rule; the number of rules that hold it. -/
def offer (b : BoardState) (now : ℤ) (r : BoardRow) (facts : BoardRowFacts) : BoardState × ℕ :=
  let offered := b.states.map fun st => st.offerRow dateParse now r facts
  let holds := offered.countP Offered.holds
  let b := { b with states := offered.map Offered.state }
  let b := if 0 < holds then { b with kept := b.kept.set r.ins holds } else b
  (b.releaseRows (offered.flatMap Offered.letGo), holds)

def releasePastWindows (b : BoardState) (now : ℤ) : BoardState :=
  let released := b.states.map fun st => st.releasePast dateParse now
  releaseRows { b with states := released.map Prod.fst } (released.flatMap Prod.snd)

/-- Read one fact; the flag says that a bulk load is out of order. -/
def readFact (now : ℤ) (bulk : Bool) (s : BoardState × Bool) (f : Fact) : BoardState × Bool :=
  let b := { s.1 with begun := true }
  if (BOARD_UNREAD_STEPS.map String.toList).contains f.step then (b, s.2)
  else
    let r : BoardRow := ⟨b.ins + 1, f.tsMs, withoutUnreadFields f.row⟩
    let (repeated, lastDisposition) := b.sweepRepeatOf r
    let b := { b with ins := r.ins, lastDisposition := lastDisposition }
    let (b, holds) := b.offer dateParse now r ⟨false, repeated⟩
    if 0 < holds then
      let b := if (dispositionPr r.row).isSome then { b with sweepRepeats := b.sweepRepeats.set r.ins repeated } else b
      let outOfOrder := s.2 || (bulk && b.rows.getLast?.any fun last => decide (r.tsMs < last.tsMs))
      (b.place r bulk, outOfOrder)
    else (b, s.2)

/-- Read a chunk of facts, the last ones there are if `caughtUp`. -/
def ingest (b : BoardState) (now : ℤ) (facts : List Fact) (caughtUp : Bool) : BoardState :=
  let bulk := !b.begun || b.bulkOpen
  let (b, outOfOrder) := facts.foldl (readFact dateParse now bulk) (b, bulk && b.bulkOutOfOrder)
  let b := { b with bulkOpen := bulk && !caughtUp, bulkOutOfOrder := !caughtUp && outOfOrder }
  let b := b.compact
  if caughtUp && outOfOrder then { b with rows := b.rows.mergeSort fun x y => decide (x.tsMs ≤ y.tsMs) } else b

end BoardState

/-- The input of an update: the time of its readers, the facts of its chunk, and whether they are the last. -/
structure BoardInput where
  readerNowMs : ℤ
  facts : List Fact
  caughtUp : Bool

namespace BoardState

variable (dateParse : Text → Option ℤ)

def update (b : BoardState) (input : BoardInput) : BoardState :=
  let b := if b.readerNowMs.all fun now => decide (now < input.readerNowMs) then
      releasePastWindows dateParse { b with readerNowMs := some input.readerNowMs } input.readerNowMs
    else b
  b.ingest dateParse (b.readerNowMs.getD input.readerNowMs) input.facts input.caughtUp

/-- The board after a run of updates. -/
def runFrom (rules : List BoardRetentionRule) (inputs : List BoardInput) : BoardState :=
  inputs.foldl (update dateParse) (start rules)

end BoardState

end Remudero.Board
