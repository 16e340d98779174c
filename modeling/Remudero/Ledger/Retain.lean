import Remudero.Ledger.Carry

/-! # What a rotation retains

The retention passes of `rotateLedgerLocked` in `lib/ledger.ts`, from the lines of the snapshot to the
core that is written back: classification by step, recency windows, the evidence of each surviving
boot, the carry prune, the dedup and age bound of sweep rows, and the cap on each step.

The program follows a line by its object identity; here a line has its place in the file order
(`ParsedLine.place`).  `JSON.parse` and `Date.parse` are parameters.  The passes regroup the lines, but
what they retain is in file order again (`keptCandidates_sublist`). -/

namespace Remudero.Ledger

open Remudero.Lib

/-- `JSON.parse`, `none` where it throws, and `Date.parse`, `none` where it is not a number. -/
structure LineReader where
  json : Text → Option Json
  date : Text → Option ℤ

structure ParsedLine where
  place : ℕ
  raw : Text
  json : Option Lib.Row
  step : Option Text
  tsMs : Option ℤ

namespace ParsedLine

def carried (p : ParsedLine) : CarriedRow := ⟨p.json, p.step⟩

def str (p : ParsedLine) (name : String) : Option Text := p.json.bind fun json => json.str name

def isStep (p : ParsedLine) (step : String) : Bool := p.step = some step.toList

/-- The line is among the others, by identity. -/
def among (p : ParsedLine) (lines : List ParsedLine) : Bool := lines.any fun q => q.place = p.place

end ParsedLine

/-- A JSON value that is not an object has no fields that a pass reads. -/
def parseLedgerLine (P : LineReader) (raw : Text) (place : ℕ) : ParsedLine :=
  match P.json (Text.trim raw) with
  | some (.obj fields) =>
      ⟨place, raw, some fields, Row.str fields "step", (Row.str fields "ts").bind P.date⟩
  | _ => ⟨place, raw, none, none, none⟩

/-- The recarried rows and the lines of the snapshot that are not blank, in file order. -/
def originalOrder (P : LineReader) (recarried : List Text) (snapshot : Text) : List ParsedLine :=
  (recarried ++ (Text.splitBy (· == '\n') snapshot).filter fun raw => !(Text.trim raw).isEmpty).zipIdx.map
    fun p => parseLedgerLine P p.1 p.2

/-! ### Steps -/

def isHealthOrDeployStep (step : Text) : Bool :=
  step = "daemon.boot".toList || "deploy.".toList.isPrefixOf step

def isModelAttributionStep (step : Text) : Bool := step = "implement.done".toList

def renderRelevantLedgerSteps : List String :=
  ["daemon.headroom", "console.kick_refused", "console.kick_dispatched", "daemon.start", "drain.start",
    "retro.start", "serve.start", "triage.start", "daemon.headroom.degraded", "daemon.headroom.unavailable",
    "daemon.cost_governor", "daemon.queue_governor", "console.ceiling_override_written", "sweep.pass",
    "sweep.summary", "implement.done"]

def isRenderRelevantStep (step : Text) : Bool := step ∈ renderRelevantLedgerSteps.map String.toList

def HEALTH_STEP_RETENTION_WINDOW_MS : ℤ := 15 * 60 * 1000

def RENDER_STEP_RETENTION_WINDOW_MS : ℤ := 30 * 60 * 1000

def MAX_RETAINED_LINES_PER_STEP : ℕ := 200

def REVIEW_POSTED_RETAINED_ROWS : ℕ := 140

def SWEEP_DISPOSED_RECENT_WINDOW_MS : ℤ := 24 * 3600000

def SWEEP_DISPOSED_STANDING_WINDOW_MS : ℤ := 7 * 24 * 3600000

def SWEEP_REPAIR_DISPOSITIONS : List Text :=
  ["blocked-fixable".toList, "blocked-ambiguous".toList, "stale".toList, "conflicted".toList]

/-! ### Classification and recency windows -/

def classify (retained : List Text) (lines : List ParsedLine) : List ParsedLine :=
  lines.filter fun p => p.step.any fun step =>
    !step.isEmpty && (step ∈ retained || isModelAttributionStep step || isHealthOrDeployStep step ||
      isRenderRelevantStep step)

def newestBootLine (candidates : List ParsedLine) : Option ParsedLine :=
  candidates.foldl (fun best p =>
    if p.isStep "daemon.boot" && p.tsMs.any fun ts => (best.bind ParsedLine.tsMs).all fun b => b < ts then some p
    else best) none

/-- The line is within the window of its step. -/
def withinWindow (newest : Option ParsedLine) (nowMs : ℤ) (p : ParsedLine) : Bool :=
  match p.step with
  | none => true
  | some step =>
      isModelAttributionStep step || newest.any (fun b => b.place = p.place) ||
        (!isHealthOrDeployStep step && !isRenderRelevantStep step) ||
        p.tsMs.all fun ts => nowMs - ts ≤
          if isHealthOrDeployStep step then HEALTH_STEP_RETENTION_WINDOW_MS else RENDER_STEP_RETENTION_WINDOW_MS

/-! ### The evidence of surviving boots -/

def bootRuns (candidates : List ParsedLine) : List Text :=
  (candidates.filter fun p => p.isStep "daemon.boot").filterMap fun p =>
    (p.str "run_id").filter fun run => "DAEMON-".toList.isPrefixOf run

/-- The last line of each kind that a boot's lifetime left. -/
abbrev Evidence := List (Text × ParsedLine)

def evidenceKeys (p : ParsedLine) : List Text :=
  "last".toList :: match p.step with
    | some step =>
        if step = "daemon.memory".toList ∨ step = "daemon.memory_policy".toList then [step] else []
    | none => []

def addEvidence (p : ParsedLine) (ts : ℤ) (evidence : Evidence) : Evidence :=
  (evidenceKeys p).foldl (fun evidence key =>
    if ((entryOf key evidence).bind ParsedLine.tsMs).all fun old => old ≤ ts then assign key p evidence
    else evidence) evidence

def lifetimeEvidence (runs : List Text) (lines : List ParsedLine) : List (Text × Evidence) :=
  lines.foldl (fun all p =>
    match p.str "run_id", p.tsMs with
    | some run, some ts =>
        if run ∈ runs then assign run (addEvidence p ts ((entryOf run all).getD [])) all else all
    | _, _ => all) []

/-- Distinct lines, in the order of their first occurrence. -/
def distinctLines (lines : List ParsedLine) : List ParsedLine :=
  lines.foldl (fun found p => if p.among found then found else found ++ [p]) []

def withLifetimeEvidence (lines candidates : List ParsedLine) : List ParsedLine :=
  let evidence := lifetimeEvidence (bootRuns candidates) lines
  let preserved := distinctLines (evidence.flatMap fun e => e.2.map Prod.snd)
  candidates ++ preserved.filter fun p => !p.among candidates

/-! ### The carry prune -/

def pruneLines (candidates : List ParsedLine) : List ParsedLine :=
  (candidates.zipIdx.filter fun p => carries (candidates.map ParsedLine.carried) p.1.carried p.2).map Prod.fst

/-- The last line of a key. -/
def lastByKey (keyOf : ParsedLine → Option Text) (lines : List ParsedLine) (key : Text) : Option ParsedLine :=
  (lines.filter fun p => keyOf p = some key).getLast?

def reviewTask (p : ParsedLine) : Option Text :=
  if p.isStep "review.posted" then p.str "task_id" else none

/-- The url, head and digest of what a review read, as JSON. -/
def reviewInput (json : Lib.Row) : Text :=
  let value (name : String) := (json.field name).getD .null
  Json.stringify (.arr [value "pr_url", value "head_sha", value "review_input_digest"])

def isArrayField (json : Lib.Row) (name : String) : Bool :=
  match json.field name with
  | some (.arr _) => true
  | _ => false

def dropSupersededReviews (lines : List ParsedLine) : List ParsedLine :=
  lines.filter fun p =>
    match (reviewTask p).bind fun task => lastByKey reviewTask lines task with
    | none => true
    | some n =>
        if n.place = p.place then true
        else
          match p.json, n.json with
          | some j, some newest =>
              reviewInput j = reviewInput newest || j.str "failure_class" = some "instrument_entangled".toList ||
                (newest.str "state" ≠ some "success".toList && !isArrayField newest "unmet_criteria")
          | _, _ => true

/-- The markers of the plan-only reviews that are candidates and not carried. -/
def reviewMarkers (candidates carried : List ParsedLine) : List PlanOnlyMarker :=
  planOnlyReviewMarkers (candidates.map ParsedLine.carried)
    ((candidates.zipIdx.filter fun p => p.1.among carried).map fun p => (p.1.carried, p.2))

/-! ### Sweep rows -/

/-- `pr@head` of a sweep row. -/
def sweepGroup (p : ParsedLine) : Option Text :=
  if p.isStep "sweep.disposed" then
    p.json.map fun json =>
      let prNumber := match json.field "pr_number" with
        | some (.num shown) => shown
        | _ => ['?']
      prNumber ++ '@' :: (json.str "head_sha").getD []
  else none

/-- The line of a group that stays: its newest acted one, else its newest. -/
def newestActed (group : List ParsedLine) : Option ParsedLine :=
  let acted := group.filter fun p => (p.json.bind fun json => json.bool "acted") = some true
  if acted.isEmpty then group.getLast? else acted.getLast?

def dedupSweep (candidates : List ParsedLine) : List ParsedLine :=
  let groups := (candidates.filterMap sweepGroup).foldl (fun ks k => if k ∈ ks then ks else ks ++ [k]) []
  (candidates.filter fun p => (sweepGroup p).isNone) ++
    groups.filterMap fun k => newestActed (candidates.filter fun p => sweepGroup p = some k)

/-- The pull request of a sweep row, of those that `has` accepts. -/
def sweepPr (has : Lib.Row → Bool) (p : ParsedLine) : Option Text :=
  if p.isStep "sweep.disposed" then (p.json.filter has).map fun json => json.shown "pr_number" else none

def boundSweepRows (lines : List ParsedLine) (nowMs : ℤ) : List ParsedLine :=
  let isNewest (has : Lib.Row → Bool) (json : Lib.Row) (p : ParsedLine) : Bool :=
    (lastByKey (sweepPr has) lines (json.shown "pr_number")).any fun n => n.place = p.place
  lines.filter fun p =>
    match p.isStep "sweep.disposed", p.json, p.tsMs with
    | true, some json, some ts =>
        if nowMs - ts ≤ SWEEP_DISPOSED_RECENT_WINDOW_MS then true
        else if (json.str "keep_head_branch").isSome then true
        else if SWEEP_DISPOSED_STANDING_WINDOW_MS < nowMs - ts then false
        else
          (json.bool "acted" = some true && (json.str "disposition").any fun d => d ∈ SWEEP_REPAIR_DISPOSITIONS) ||
            isNewest (fun _ => true) json p || isNewest (fun j => (j.str "main_tip_sha").isSome) json p ||
            isNewest (fun j => (j.str "blocker").isSome) json p
    | _, _, _ => true

/-! ### The cap on each step -/

/-- The most lines of a step that stay; `none` where another pass bounds it. -/
def stepCap (step : Text) : Option ℕ :=
  if step = "sweep.disposed".toList ∨ isHealthOrDeployStep step ∨
      (!isModelAttributionStep step ∧ isRenderRelevantStep step) then none
  else some (if step = "review.posted".toList then REVIEW_POSTED_RETAINED_ROWS else MAX_RETAINED_LINES_PER_STEP)

def capSteps (candidates : List ParsedLine) : List ParsedLine :=
  let stepOf (p : ParsedLine) : Text := p.step.getD []
  let steps := (candidates.map stepOf).foldl (fun ks k => if k ∈ ks then ks else ks ++ [k]) []
  steps.flatMap fun step =>
    let group := candidates.filter fun p => stepOf p = step
    match stepCap step with
    | none => group
    | some cap => group.drop (group.length - cap)

/-! ### The passes -/

/-- The core that a rotation retains, and the markers it writes for the reviews it drops. -/
def retain (retained : List Text) (nowMs : ℤ) (lines : List ParsedLine) : List ParsedLine × List PlanOnlyMarker :=
  let classified := classify retained lines
  let windowed := classified.filter (withinWindow (newestBootLine classified) nowMs)
  let candidates := withLifetimeEvidence lines windowed
  let carried := dropSupersededReviews (pruneLines candidates)
  let deduped := dedupSweep carried
  let bounded := boundSweepRows (lines.filter fun p => p.among deduped) nowMs
  let capped := capSteps (deduped.filter fun p => p.among bounded)
  (lines.filter fun p => p.among capped, reviewMarkers candidates carried)

theorem map_place_originalOrder (P : LineReader) (recarried : List Text) (snapshot : Text) :
    ((originalOrder P recarried snapshot).map ParsedLine.place).Nodup := by
  have hplace : ∀ raw place, (parseLedgerLine P raw place).place = place := by
    intro raw place
    unfold parseLedgerLine
    split <;> rfl
  rw [originalOrder, List.map_map]
  have hcomp : (ParsedLine.place ∘ fun p : Text × ℕ => parseLedgerLine P p.1 p.2) = Prod.snd := by
    funext p
    exact hplace p.1 p.2
  rw [hcomp, List.zipIdx_map_snd]
  exact List.nodup_range'

/-- What is retained is in file order. -/
theorem keptCandidates_sublist (retained : List Text) (nowMs : ℤ) (lines : List ParsedLine) :
    (retain retained nowMs lines).1.Sublist lines :=
  List.filter_sublist

end Remudero.Ledger
