import Remudero.Lib.Calendar
import Remudero.Lib.Regex
import Remudero.Lib.Row

/-! # The retention rules of the board

`BOARD_ROW_RETENTION` of `lib/board-projection.ts`: which readers hold a row of the board, under which
key, of which kind and in which window.  `Date.parse` is a parameter, `none` where it answers `NaN`.
A number of a row is its `String`, so that two numbers are equal when their texts are.

A windowed rule holds a row under the text `base@window`.  No window is written with an `@`, so the
key is modelled as the pair of the two.  The start of a day or week is `NaN`, here `none` within, when
the year of the time has not four digits. -/

namespace Remudero.Board

open Remudero.Lib

/-! ### Fields of a row -/

/-- A field that is a number, as its `String`. -/
def numField (row : Row) (name : String) : Option Text :=
  match row.field name with
  | some (.num t) => some t
  | _ => none

def hasStep (row : Row) (step : String) : Bool := row.str "step" = some step.toList

def taskKey (row : Row) : Option Text := row.str "task_id"

def prKey (row : Row) : Option Text := numField row "pr_number"

def runKey (row : Row) : Option Text := row.str "run_id"

def HOLD_ENGAGED : String := "automerge.hold_engaged"

def HOLD_RELEASED : String := "automerge.hold_released"

def BOARD_RUN_ACTIVITY_STEP : String := "read_model.run_activity"

def WORKER_ACTIVITY_STAND_IN_STEP : String := "read_model.run_worker"

def RUN_SPEND_STEPS : List String := ["run.start", "verdict", "implement.done", "fix.done"]

def isHold (row : Row) : Bool := hasStep row HOLD_ENGAGED || hasStep row HOLD_RELEASED

def isMerge (row : Row) : Bool :=
  (hasStep row "verdict" && row.str "verdict" = some "merged".toList) || hasStep row "verdict.merged"

/-- The hold events that the merge gate acts on. -/
def actedHold (row : Row) : Bool :=
  if row.str "authority" ≠ some "interactive-cli".toList ∧ row.str "authority" ≠ some "console-confirmed".toList then false
  else if hasStep row HOLD_RELEASED then true
  else hasStep row HOLD_ENGAGED && ((row.str "by").any fun t => !t.isEmpty) && (row.str "reason").any fun t => !t.isEmpty

/-- `/^PRIMARY-SHADOW-[a-f0-9]{64}$/`. -/
def primaryShadow (t : Text) : Bool :=
  (Re.seqs [.start, .text "PRIMARY-SHADOW-",
    .rep 64 (some 64) true (.cls fun c => c.isDigit || ('a' ≤ c && c ≤ 'f')), .stop]).test t

/-! ### Rules -/

inductive BoardRetentionWindow
  | utcDay
  | utcDayText
  | isoWeek
deriving DecidableEq

inductive RetentionKind
  | newest
  | first
  | all
  | run
  | asof
deriving DecidableEq

/-- What a rule may ask of a row beyond its fields. -/
structure BoardRowFacts where
  standIn : Bool
  repeated : Bool

structure BoardRetentionRule where
  reader : String
  /-- the steps whose rows the rule can hold; `none` for any step -/
  steps : Option (List String)
  kind : RetentionKind
  window : Option BoardRetentionWindow
  key : Row → BoardRowFacts → Option Text

/-- A key where a condition holds. -/
def keyIf (p : Bool) (key : Option Text) : Option Text := if p then key else none

def windowRules (window : BoardRetentionWindow) (reader : String) : List BoardRetentionRule :=
  [⟨reader ++ ": each run's first row in the window", none, .first, some window,
      fun row f => keyIf (!f.standIn) (runKey row)⟩,
    ⟨reader ++ ": each run's first verdict in the window", some ["verdict"], .first, some window,
      fun row _ => keyIf (hasStep row "verdict") (runKey row)⟩,
    ⟨reader ++ ": each run's first costed row in the window", none, .first, some window,
      fun row f => keyIf (!f.standIn && (numField row "cost_usd").isSome) (runKey row)⟩] ++
  if window = .isoWeek then
    [⟨reader ++ ": the stand-ins in the window",
      some [BOARD_RUN_ACTIVITY_STEP, WORKER_ACTIVITY_STAND_IN_STEP], .all, some window,
      fun row f => keyIf (f.standIn && (runKey row).any fun t => !t.isEmpty) (some "stand-in".toList)⟩]
  else []

def newestRule (reader : String) (steps : Option (List String)) (key : Row → BoardRowFacts → Option Text) :
    BoardRetentionRule := ⟨reader, steps, .newest, none, key⟩

def isEscalation (row : Row) : Bool :=
  hasStep row "escalation.issue_opened" || hasStep row "primary_shadow.issue_published"

def escalationSteps : List String := ["escalation.issue_opened", "primary_shadow.issue_published"]

def runRule : BoardRetentionRule :=
  ⟨"liveRunSpendByTask (status-stream-publisher.ts): each task's current run", some RUN_SPEND_STEPS, .run, none,
    fun row _ => keyIf (RUN_SPEND_STEPS.any (hasStep row)) (taskKey row)⟩

def BOARD_ROW_RETENTION : List BoardRetentionRule :=
  [newestRule "lastActivityByTask (board.ts): each task's newest row" none fun row _ => taskKey row,
    newestRule "changedActivityByTask (now-view.ts): each task's newest row, sweep repeats excluded" none
      fun row f => keyIf (!f.repeated) (taskKey row),
    newestRule "rawBlockedPrCandidates (status-board.ts): each PR's newest disposition" (some ["sweep.disposed"])
      fun row _ => keyIf (hasStep row "sweep.disposed") (prKey row),
    newestRule "nowActions (now-view.ts): each PR's newest disposition change" (some ["sweep.disposed"])
      fun row f => keyIf (hasStep row "sweep.disposed" && !f.repeated) (prKey row),
    newestRule "derivePrQueue (board.ts): each PR head's newest disposition" (some ["sweep.disposed"])
      fun row _ => keyIf (hasStep row "sweep.disposed") <|
        (prKey row).bind fun pr => (row.str "head_sha").map fun sha => pr ++ Char.ofNat 0 :: sha,
    newestRule "automergeHoldFromLedger (review.ts): each PR's and the fleet's last acted hold event"
      (some [HOLD_ENGAGED, HOLD_RELEASED])
      fun row _ => keyIf (actedHold row) (some ((prKey row).getD "fleet".toList)),
    newestRule "deriveMergeHeld (status-board.ts): every PR a hold row names" (some [HOLD_ENGAGED, HOLD_RELEASED])
      fun row _ => keyIf (isHold row) (prKey row),
    newestRule "latestHoldTaskId (status-board.ts): each scope's newest engage naming a task" (some [HOLD_ENGAGED])
      fun row _ => keyIf (hasStep row HOLD_ENGAGED && (row.str "task_id").any fun t => !t.isEmpty)
        (some ((prKey row).getD "fleet".toList)),
    newestRule "nowActions (now-view.ts): each PR's newest engage" (some [HOLD_ENGAGED])
      fun row _ => keyIf (hasStep row HOLD_ENGAGED) (prKey row),
    runRule,
    newestRule "escalationClasses (now-decisions.ts): each task's newest escalation" (some escalationSteps)
      fun row _ => keyIf (isEscalation row) (taskKey row),
    newestRule "projectPlan (status.ts): each primary shadow issue's delivered selection" (some escalationSteps)
      fun row _ => keyIf (isEscalation row && (row.str "task_id").any primaryShadow) (row.str "issue_url"),
    ⟨"projectFeedbackGates (human-gate.ts): each feedback's triage claims up to and after the readers' now",
      some ["triage.start"], .asof, none, fun row _ => keyIf (hasStep row "triage.start") (row.str "feedback_id")⟩,
    ⟨"mergedTodayCount (now-view.ts): the day's merges, by their ts text", some ["verdict", "verdict.merged"],
      .all, some .utcDayText, fun row _ => keyIf (isMerge row) (some "merge".toList)⟩,
    newestRule "mergedTodayCount (now-view.ts): each run's newest PR url" (some ["pr.opened"])
      fun row _ => keyIf (hasStep row "pr.opened" && (row.str "pr_url").isSome) (runKey row),
    ⟨"computeGlanceSpend (glance.ts): the day's merged verdicts", some ["verdict"], .all, some .utcDay,
      fun row _ => keyIf (hasStep row "verdict" && row.str "verdict" = some "merged".toList)
        (some "merge".toList)⟩] ++
  windowRules .utcDay "windowCostRows (sweep.ts) for the day's spend" ++
  windowRules .isoWeek "windowCostRows (sweep.ts) for the week's spend"

/-! ### Windows -/

def DAY_MS : ℤ := 86400000

/-- `utcDayWindowMs(ms)[0]`. -/
def utcDayStart (ms : ℤ) : Option ℤ :=
  if firstFourDigitMs ≤ ms ∧ ms ≤ lastFourDigitMs then some (ms - ms % DAY_MS) else none

/-- `utcWeekWindowMs(ms)[0]`; 1970-01-01 was a Thursday. -/
def utcWeekStart (ms : ℤ) : Option ℤ :=
  (utcDayStart ms).map fun dayStart => dayStart - (dayStart / DAY_MS + 3) % 7 * DAY_MS

def currentWindowStart (window : BoardRetentionWindow) (nowMs : ℤ) : Option ℤ :=
  if window = .isoWeek then utcWeekStart nowMs else utcDayStart nowMs

/-- `a < b` for numbers that may be `NaN`. -/
def nanLt (a b : Option ℤ) : Bool :=
  match a, b with
  | some a, some b => decide (a < b)
  | _, _ => false

section

variable (dateParse : Text → Option ℤ)

/-- `Date.parse(row.ts)` of a text. -/
def tsTime (row : Row) : Option ℤ := (row.str "ts").bind dateParse

/-- The window of a row, `none` if it has none. -/
def windowStartOf (window : BoardRetentionWindow) (row : Row) : Option (Option ℤ) :=
  (row.str "ts").bind fun ts =>
    if window = .utcDayText then
      (dateParse (Text.takeUnits 10 ts ++ "T00:00:00.000Z".toList)).map some
    else
      (dateParse ts).map fun ms => if window = .isoWeek then utcWeekStart ms else utcDayStart ms

abbrev RetentionKey := Text × Option (Option ℤ)

namespace BoardRetentionRule

variable (rule : BoardRetentionRule)

/-- The key under which the rule would hold a row, whatever the time. -/
def keyOf (row : Row) (facts : BoardRowFacts) : Option RetentionKey :=
  if rule.steps.all fun steps => steps.any (hasStep row) then
    if rule.kind = .asof ∧ (tsTime dateParse row).isNone then none
    else (rule.key row facts).bind fun base =>
      match rule.window with
      | none => some (base, none)
      | some window => (windowStartOf dateParse window row).map fun start => (base, some start)
  else none

/-- The window of the key is over. -/
def past (now : ℤ) (key : RetentionKey) : Bool :=
  match rule.window, key.2 with
  | some window, some start => nanLt start (currentWindowStart window now)
  | _, _ => false

end BoardRetentionRule

end

end Remudero.Board
