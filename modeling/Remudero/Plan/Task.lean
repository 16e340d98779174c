import Remudero.Lib.Json

/-! # Plan tasks

`parseTasksFromYaml` of `lib/plan.ts` with its field checks, in the order the source makes them.
The `yaml` package is the parameter `parseYaml`, whose error is the text of the exception it
throws, and `regExpError` is the text of the exception of `new RegExp`, if it throws.

A YAML value is a tree in which every collection has the number of its node: JavaScript compares
collections by identity, and an id or a dependency may be any value (`Key`).  A number carries the
text it is printed as.  A task keeps the fields that merging reads; the checks are made of every
field the source checks. -/

namespace Remudero.Plans

open Remudero.Lib

inductive Number where
  | finite (q : ℚ)
  | nan
  | infinity (negative : Bool)
deriving DecidableEq

inductive Yaml where
  | null
  | bool (b : Bool)
  | num (value : Number) (shown : Text)
  | str (t : Text)
  | seq (node : ℕ) (items : List Yaml)
  | map (node : ℕ) (fields : List (Text × Yaml))

/-- What a JavaScript `Map` compares of a value. -/
inductive Key where
  | null
  | bool (b : Bool)
  | num (value : Number)
  | str (t : Text)
  | node (n : ℕ)
deriving DecidableEq

namespace Yaml

def key : Yaml → Key
  | .null => .null
  | .bool b => .bool b
  | .num value _ => .num value
  | .str t => .str t
  | .seq n _ => .node n
  | .map n _ => .node n

/-- A property; `none` is `undefined`. -/
def field (v : Yaml) (name : String) : Option Yaml :=
  match v with
  | .map _ fields => (fields.find? fun f => f.1 = name.toList).map (·.2)
  | _ => none

def isObject : Yaml → Bool
  | .seq .. | .map .. => true
  | _ => false

def string? : Yaml → Option Text
  | .str t => some t
  | _ => none

mutual

/-- `String(v)`; a list joins its elements, `null` as nothing. -/
def shown : Yaml → Text
  | .null => "null".toList
  | .bool true => "true".toList
  | .bool false => "false".toList
  | .num _ t => t
  | .str t => t
  | .seq _ items => Json.commas (shownItems items)
  | .map .. => "[object Object]".toList

def shownItems : List Yaml → List Text
  | [] => []
  | .null :: vs => [] :: shownItems vs
  | v :: vs => shown v :: shownItems vs

end

mutual

/-- The value `JSON.stringify` serializes; it writes a number that is not finite as `null`. -/
def toJson : Yaml → Json
  | .null => .null
  | .bool b => .bool b
  | .num (.finite _) t => .num t
  | .num _ _ => .null
  | .str t => .str t
  | .seq _ items => .arr (toJsonItems items)
  | .map _ fields => .obj (toJsonFields fields)

def toJsonItems : List Yaml → List Json
  | [] => []
  | v :: vs => toJson v :: toJsonItems vs

def toJsonFields : List (Text × Yaml) → List (Text × Json)
  | [] => []
  | (name, v) :: fields => (name, toJson v) :: toJsonFields fields

end

end Yaml

/-- `String(v)` of a value that may be `undefined`. -/
def shownOr (v : Option Yaml) : Text := (v.map Yaml.shown).getD "undefined".toList

def jsonOr (v : Option Yaml) : Text := (v.map fun v => v.toJson.stringify).getD "undefined".toList

/-- The type of a value as an author would recognise it. -/
def yamlTypeOf : Option Yaml → Text
  | none => "undefined".toList
  | some .null => "null".toList
  | some (.seq ..) => "array".toList
  | some (.map ..) => "object".toList
  | some (.bool _) => "boolean".toList
  | some (.num ..) => "number".toList
  | some (.str _) => "string".toList

structure PlanError where
  message : Text
deriving DecidableEq

/-- Throw a `PlanError` whose message is the pieces in order. -/
def throwPlan {α : Type} (pieces : List Text) : Except PlanError α := .error ⟨pieces.flatten⟩

def taskStatuses : List Text :=
  ["queued".toList, "recon".toList, "prompted".toList, "running".toList, "review".toList,
    "fixing".toList, "diagnosing".toList, "blocked".toList, "merged".toList, "done".toList]
def taskRisks : List Text := ["low".toList, "medium".toList, "high".toList]
def defaultRisk : Text := "medium".toList
def bandMeanings : List Text := ["span".toList, "blast-radius".toList]
def retirementReasons : List Text := ["retired".toList, "closed".toList, "withdrawn".toList]
def taskTypes : List Text :=
  ["recon".toList, "implement".toList, "diagnose".toList, "review".toList, "manual".toList]

/-- `xs.join("|")`. -/
def joinBar (xs : List Text) : Text := (xs.intersperse ['|']).flatten

/-- Is the value one of the texts? -/
def oneOf (xs : List Text) (v : Yaml) : Bool :=
  match v with
  | .str t => xs.elem t
  | _ => false

/-- `^[A-Za-z0-9]+(?:-[A-Za-z0-9]+)+$`. -/
def taskIdShape (t : Text) : Bool :=
  let parts := Text.splitBy (· == '-') t
  2 ≤ parts.length && parts.all fun part => !part.isEmpty && part.all Char.isAlphanum

/-- A required field; `null` counts as missing. -/
def req (v : Option Yaml) (name : String) (id : Text) : Except PlanError Yaml :=
  match v with
  | none | some .null => throwPlan ["task ".toList, id, ": missing required field '".toList, name.toList, ['\'']]
  | some v => .ok v

/-- `\([^()]*[+*][^()]*\)[+*]` matches somewhere. -/
def nestedRepeat : Text → Bool
  | [] => false
  | c :: cs =>
      let repeats := fun c => c == '+' || c == '*'
      let inner := cs.takeWhile fun c => c != '(' && c != ')'
      (c == '(' && inner.any repeats &&
        match cs.drop inner.length with
        | ')' :: d :: _ => repeats d
        | _ => false) || nestedRepeat cs

section checks

variable (regExpError : Text → Option Text) (label id : Text)

def validateSymptomQuery (v : Option Yaml) : Except PlanError Unit :=
  match v with
  | none => .ok ()
  | some v =>
      if !v.isObject then throwPlan ["task ".toList, id, ": invalid symptom_query".toList]
      else match (v.field "pattern").bind Yaml.string?, (v.field "direction").bind Yaml.string? with
        | some pattern, some direction =>
            if (Text.trim pattern).isEmpty || 200 < Text.unitLength pattern || nestedRepeat pattern ||
                (direction != "increase".toList && direction != "decrease".toList) then
              throwPlan ["task ".toList, id,
                ": symptom_query requires a ledger-grep pattern and increase|decrease direction".toList]
            else match regExpError pattern with
              | some err => throwPlan ["task ".toList, id, ": invalid symptom_query pattern: ".toList, err]
              | none => .ok ()
        | _, _ => throwPlan ["task ".toList, id,
            ": symptom_query requires a ledger-grep pattern and increase|decrease direction".toList]

/-- The digits of a text as a number; `none` when another character is among them. -/
def digits? (t : Text) : Option ℕ :=
  if !t.isEmpty && t.all Char.isDigit then
    some (t.foldl (fun n c => 10 * n + (c.toNat - 48)) 0)
  else none

def daysInMonth (year month : ℕ) : ℕ :=
  if month = 2 then (if year % 4 = 0 ∧ (year % 100 ≠ 0 ∨ year % 400 = 0) then 29 else 28)
  else if month = 4 ∨ month = 6 ∨ month = 9 ∨ month = 11 then 30 else 31

/-- `dddd-dd-dd` naming a day of the calendar. -/
def calendarDate (t : Text) : Bool :=
  match Text.splitBy (· == '-') t with
  | [y, m, d] =>
      y.length == 4 && m.length == 2 && d.length == 2 &&
        match digits? y, digits? m, digits? d with
        | some y, some m, some d => 1 ≤ m && m ≤ 12 && 1 ≤ d && d ≤ daysInMonth y m
        | _, _, _ => false
  | _ => false

/-- Two digits below `bound`. -/
def twoDigits (bound : ℕ) (t : Text) : Bool :=
  t.length == 2 && match digits? t with
    | some n => n < bound
    | none => false

/-- `hh:mm`. -/
def hourMinute (t : Text) : Bool :=
  match Text.splitBy (· == ':') t with
  | [h, m] => twoDigits 24 h && twoDigits 60 m
  | _ => false

/-- `hh:mm:ss`, up to three digits of a fraction, and `Z` or an offset. -/
def zonedTime (t : Text) : Bool :=
  hourMinute (t.take 5) && (t.drop 5).head? == some ':' && twoDigits 60 ((t.drop 6).take 2) &&
    let rest := t.drop 8
    let zone := match rest with
      | '.' :: fraction =>
          let ds := fraction.takeWhile Char.isDigit
          if 1 ≤ ds.length && ds.length ≤ 3 then some (fraction.drop ds.length) else none
      | _ => some rest
    match zone with
    | some ['Z'] => true
    | some ('+' :: offset) | some ('-' :: offset) => hourMinute offset
    | _ => false

/-- An ISO date, or a timestamp with a timezone, of a day of the calendar. -/
def validateNotBefore (v : Option Yaml) : Except PlanError Unit :=
  match v with
  | none => .ok ()
  | some v =>
      let ok := match v with
        | .str t => calendarDate (t.take 10) &&
            match t.drop 10 with
            | [] => true
            | 'T' :: time => zonedTime time
            | _ => false
        | _ => false
      if ok then .ok ()
      else throwPlan ["task ".toList, id,
        ": not_before must be a valid ISO date or timestamp with a timezone".toList]

def preconditionMaxBytes : ℕ := 64 * 1024

/-- The arguments of an allowed read. -/
def allowedRead : List Text → Bool
  | [] => false
  | verb :: args =>
      (verb == "--help".toList && args.isEmpty) ||
      ((verb == "status".toList || verb == "doctor".toList) && (args.isEmpty || args == ["--json".toList])) ||
      (verb == "ledger-grep".toList && args.length == 1) ||
      ((verb == "trace".toList || verb == "pr-owner".toList) &&
        match args with
        | [arg] => arg.head? != some '-'
        | _ => false)

def validatePrecondition (v : Option Yaml) : Except PlanError Unit :=
  match v with
  | none => .ok ()
  | some v =>
      let bad : Except PlanError Unit := throwPlan ["task ".toList, id,
        ": precondition must be \x7bread: [rmd read arguments], expect: nonempty string\x7d within the reader bounds".toList]
      match v.field "read", (v.field "expect").bind Yaml.string? with
      | some (.seq _ read), some expect =>
          match read.mapM Yaml.string? with
          | none => bad
          | some args =>
              if args.isEmpty || 32 < args.length ||
                  !(args.all fun arg => !arg.isEmpty && Text.unitLength arg ≤ 1024 && arg.all (·.toNat != 0)) ||
                  (Text.trim expect).isEmpty || preconditionMaxBytes < Text.byteLength expect then bad
              else if allowedRead args then .ok ()
              else throwPlan ["task ".toList, id,
                ": precondition.read must name an allowed rmd read (--help, status, doctor, ledger-grep, trace, pr-owner)".toList]
      | _, _ => bad

/-- A string with more than white space in it. -/
def nonEmptyString (v : Option Yaml) : Bool :=
  match v.bind Yaml.string? with
  | some t => !(Text.trim t).isEmpty
  | none => false

def validateCriterion (i : ℕ) (entry : Yaml) : Except PlanError Unit :=
  let here := [label, ": task ".toList, id, ": acceptance[".toList, (toString i).toList, ['\x5d']]
  match entry with
  | .map .. => do
      if !nonEmptyString (entry.field "claim") then
        throwPlan (here ++ [": 'claim' must be a non-empty string, got ".toList, yamlTypeOf (entry.field "claim")])
      match entry.field "satisfied_by" with
      | some cited =>
          if !nonEmptyString (some cited) then
            throwPlan (here ++ [": 'satisfied_by' must be a non-empty string, got ".toList, yamlTypeOf (some cited)])
      | none =>
          if !nonEmptyString (entry.field "proof") then
            throwPlan (here ++ [": 'proof' must be a non-empty string (or 'satisfied_by' in its place), got ".toList,
              yamlTypeOf (entry.field "proof")])
  | _ => throwPlan (here ++ [": each criterion must be a mapping with 'claim' and 'proof', got ".toList,
      yamlTypeOf (some entry)])

def validateAcceptanceShape (v : Option Yaml) : Except PlanError Unit :=
  match v with
  | none | some .null => .ok ()
  | some (.seq _ entries) => entries.zipIdx.forM fun (entry, i) => validateCriterion label id i entry
  | some v => throwPlan [label, ": task ".toList, id, ": 'acceptance' must be a list of criteria, got ".toList,
      yamlTypeOf (some v)]

/-- Sixty-four lowercase hexadecimal digits. -/
def isDigest (v : Option Yaml) : Bool :=
  match v.bind Yaml.string? with
  | some t => t.length == 64 && t.all fun c => c.isDigit || ('a' ≤ c && c ≤ 'f')
  | none => false

/-- A finite number in `[0, 1]`. -/
def isConfidence : Option Yaml → Bool
  | some (.num (.finite q) _) => 0 ≤ q && q ≤ 1
  | _ => false

def isStringList : Option Yaml → Bool
  | some (.seq _ items) => items.all fun v => v.string?.isSome
  | _ => false

def validateRiskRulingShape (v : Option Yaml) : Except PlanError Unit :=
  let here := [label, ": task ".toList, id, ": risk_ruling".toList]
  match v with
  | none => .ok ()
  | some (.map n fields) => do
      let ruling : Yaml := .map n fields
      if !nonEmptyString (ruling.field "verdict") then
        throwPlan (here ++ [".verdict must be a non-empty string, got ".toList, yamlTypeOf (ruling.field "verdict")])
      if !((ruling.field "action").map (oneOf ["proceed".toList, "escalate".toList])).getD false then
        throwPlan (here ++ [".action must be 'proceed' or 'escalate', got ".toList, jsonOr (ruling.field "action")])
      if !isConfidence (ruling.field "confidence") then
        throwPlan (here ++ [".confidence must be a finite number in [0,1], got ".toList, jsonOr (ruling.field "confidence")])
      if !isStringList (ruling.field "reasons") then
        throwPlan (here ++ [".reasons must be a list of strings, got ".toList, yamlTypeOf (ruling.field "reasons")])
      if !nonEmptyString (ruling.field "judged_at") then
        throwPlan (here ++ [".judged_at must be a non-empty string, got ".toList, yamlTypeOf (ruling.field "judged_at")])
      if !isDigest (ruling.field "pin") then
        throwPlan (here ++ [".pin must be a 64-character lowercase hexadecimal digest, got ".toList,
          jsonOr (ruling.field "pin")])
      if (ruling.field "operator_release_pin").isSome && !isDigest (ruling.field "operator_release_pin") then
        throwPlan (here ++ [".operator_release_pin must be a 64-character lowercase hexadecimal digest".toList])
  | some v => throwPlan (here ++ [" must be a mapping, got ".toList, yamlTypeOf (some v)])

end checks

/-- The part of a task that merging reads. -/
structure Task where
  id : Yaml
  dependsOn : List Yaml
  supersededBy : Option Text
  sourcePath : Option Text

namespace Task

def key (t : Task) : Key := t.id.key

def uses (t : Task) : List Key := t.dependsOn.map Yaml.key

end Task

section parse

variable (parseYaml : Text → Except Text Yaml) (regExpError : Text → Option Text)

/-- The id of an entry. -/
def entryId (entry : Yaml) : Except PlanError Yaml :=
  if !entry.isObject then throwPlan ["each task must be a mapping.".toList]
  else req (entry.field "id") "id"
    (match entry.field "id" with
      | none | some .null => "<unknown>".toList
      | some v => v.shown)

/-- The checks of an entry with id `id`, in order; they answer the superseding task, if any. -/
def checkTask (label : Text) (e : Yaml) (id : Text) : Except PlanError (Option Text) := do
  let orElse := fun (v : Option Yaml) (d : Text) => match v with
    | none | some .null => Yaml.str d
    | some v => v
  let risk := orElse (e.field "risk") defaultRisk
  if !oneOf taskRisks risk then
    throwPlan ["task ".toList, id, ": invalid risk '".toList, risk.shown, "' (must be ".toList, joinBar taskRisks, [')']]
  let status := orElse (e.field "status") "queued".toList
  if !oneOf taskStatuses status then
    throwPlan ["task ".toList, id, ": invalid status '".toList, status.shown, "' (must be ".toList,
      joinBar taskStatuses,
      "; status is decorative/initial-state only — real merge-state is derived from GitHub, never written back here)".toList]
  match e.field "dispatch_hold" with
  | none | some (.bool _) => pure ()
  | some _ => throwPlan ["task ".toList, id, ": dispatch_hold must be a boolean".toList]
  let retirement := e.field "retirement"
  if (retirement.map (oneOf retirementReasons)).getD true = false then
    throwPlan ["task ".toList, id, ": invalid retirement '".toList, shownOr retirement, "' (must be ".toList,
      joinBar retirementReasons, [')']]
  let supersededBy ← match e.field "superseded_by" with
    | none => pure none
    | some (.str t) =>
        if taskIdShape t then pure (some t)
        else throwPlan ["task ".toList, id, ": superseded_by must be a task id, got '".toList, t, ['\'']]
    | some v => throwPlan ["task ".toList, id, ": superseded_by must be a task id, got '".toList, v.shown, ['\'']]
  let bandMeaning := e.field "band_meaning"
  if (bandMeaning.map (oneOf bandMeanings)).getD true = false then
    throwPlan ["task ".toList, id, ": invalid band_meaning '".toList, shownOr bandMeaning, "' (must be ".toList,
      joinBar bandMeanings, [')']]
  let type ← req (e.field "type") "type" id
  if !oneOf taskTypes type then
    throwPlan ["task ".toList, id, ": invalid type '".toList, type.shown, "' (must be ".toList, joinBar taskTypes, [')']]
  let _ ← req (e.field "title") "title" id
  let _ ← req (e.field "repo") "repo" id
  validateSymptomQuery regExpError id (e.field "symptom_query")
  validateNotBefore id (e.field "not_before")
  validatePrecondition id (e.field "precondition")
  validateAcceptanceShape label id (e.field "acceptance")
  validateRiskRulingShape label id (e.field "risk_ruling")
  pure supersededBy

def readTask (label : Text) (e id : Yaml) : Except PlanError Task :=
  (checkTask regExpError label e id.shown).map fun supersededBy =>
    let dependsOn := match e.field "depends_on" with
      | some (.seq _ items) => items
      | _ => []
    ⟨id, dependsOn, supersededBy, some label⟩

/-- The entries in order, with the ids reported as repeated before the last entry or the first
error. -/
def parseEntries (label : Text) : List Key → List Yaml → List Key × Except PlanError (List Task)
  | _, [] => ([], .ok [])
  | seen, entry :: entries =>
      match entryId entry with
      | .error err => ([], .error err)
      | .ok id =>
          let repeated := if id.key ∈ seen then [id.key] else []
          match readTask regExpError label entry id with
          | .error err => (repeated, .error err)
          | .ok t =>
              let (more, rest) := parseEntries label (id.key :: seen) entries
              (repeated ++ more, rest.map (t :: ·))

/-- `parseTasksFromYaml` with a listener for repeated ids: what the listener is told, and the
tasks or the error thrown. -/
def parseTasksFromYaml (text label : Text) : List Key × Except PlanError (List Task) :=
  match parseYaml text with
  | .error err => ([], throwPlan ["plan is not valid YAML (".toList, label, "): ".toList, err])
  | .ok (.seq _ entries) => parseEntries regExpError label [] entries
  | .ok _ => ([], throwPlan ["plan must be a YAML list of task entries (schema v1).".toList])

end parse

end Remudero.Plans
