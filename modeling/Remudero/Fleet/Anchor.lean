import Remudero.Lib.JsonParse
import Remudero.Lib.Lines
import Remudero.Lib.Row

/-! # The anchor of a shared pause

`mintAnchor`, `parseSharedPauseAnchor` and `evaluatePauseTier` of `lib/fleet-control.ts`, with the actor evidence of
`lib/actor-evidence.ts`.  A hold is one commit: its message has the minter, the session, the reason, the expiry and
the actor, each on a line of its own, and the reader takes the first line that has a label.  Session and reason are
free text, so a line of theirs after the first may have the label of a later one; and `JSON.stringify` leaves the
line separators U+2028 and U+2029 as they are, at which a line ends for the reader's patterns.

* `labelledLine_expires`, `labelledLine_actor`: which line the reader takes.
* `terms_kept_iff`: the terms of a hold are recovered exactly if no line of session or reason carries others and the
  evidence has no line separator.
* `reason_ends_pause`: a reason that turns an indefinite hold into one that has lapsed.

`Date.parse` is the parameter `dateParse`. -/

namespace Remudero.Fleet

open Remudero.Lib

/-! ### Actor evidence -/

inductive CallerClass
  | humanAtTerminal
  | agentSession
  | remoteNonInteractive
  | hostAutomation
deriving DecidableEq

def CallerClass.text : CallerClass → Text
  | .humanAtTerminal => "human at a terminal".toList
  | .agentSession => "agent session".toList
  | .remoteNonInteractive => "remote non-interactive".toList
  | .hostAutomation => "host automation".toList

def callerClasses : List Text :=
  [CallerClass.humanAtTerminal, .agentSession, .remoteNonInteractive, .hostAutomation].map CallerClass.text

structure SshEvidence where
  clientAddress : Text
  pty : Bool

structure ActorEvidence where
  /-- `kind`: an agent, or a human -/
  agent : Bool
  osUser : Text
  host : Text
  containerId : Option Text
  session : Option Text
  agentMarkers : List Text
  ttyStdin : Bool
  ttyStdout : Bool
  parents : List Text
  callerClass : CallerClass
  ssh : Option SshEvidence
  claimedSessionId : Option Text

/-- A property, if it has a value. -/
def optionally (name : String) (value : Option Json) : List (Text × Json) :=
  match value with
  | some v => [(name.toList, v)]
  | none => []

/-- The evidence as it is gathered, property by property. -/
def ActorEvidence.fields (e : ActorEvidence) : List (Text × Json) :=
  [("kind".toList, .str (if e.agent then "agent".toList else "human".toList)), ("os_user".toList, .str e.osUser),
    ("host".toList, .str e.host)] ++
  optionally "container_id" (e.containerId.map .str) ++ optionally "session" (e.session.map .str) ++
  [("agent_markers".toList, .arr (e.agentMarkers.map .str)),
    ("tty".toList, .obj [("stdin".toList, .bool e.ttyStdin), ("stdout".toList, .bool e.ttyStdout)]),
    ("parents".toList, .arr (e.parents.map .str)), ("caller_class".toList, .str e.callerClass.text)] ++
  optionally "ssh" (e.ssh.map fun s => .obj [("client_address".toList, .str s.clientAddress), ("pty".toList, .bool s.pty)]) ++
  optionally "claimed_session_id" (e.claimedSessionId.map .str)

def ActorEvidence.json (e : ActorEvidence) : Json := .obj e.fields

/-- Evidence is an object that names a user, a host and a caller class. -/
def readActorEvidence (raw : Json) : Option Json :=
  match raw with
  | .obj fields =>
      if (Row.str fields "os_user").isSome && (Row.str fields "host").isSome &&
          (Row.str fields "caller_class").any callerClasses.contains then some raw
      else none
  | _ => none

/-- The text of a property that is there and not empty. -/
def shownProperty (fields : Row) (name : String) : Option Text :=
  (fields.field name).bind fun
    | .str t => if t.isEmpty then none else some t
    | .null => none
    | .bool false => none
    | .num shown => if shown.all fun c => c == '0' || c == '.' || c == '-' then none else some shown
    | v => some v.shown

def describeActorEvidence (raw : Option Json) : Text :=
  match raw.bind readActorEvidence with
  | some (.obj fields) =>
      (Row.str fields "os_user").getD [] ++ " on ".toList ++ (Row.str fields "host").getD [] ++
        ((shownProperty fields "container_id").map fun id => " (container ".toList ++ id ++ [')']).getD [] ++ "; ".toList ++
        (Row.str fields "caller_class").getD [] ++
        ((shownProperty fields "claimed_session_id").map fun id => "; session ".toList ++ id ++ " (claimed)".toList).getD []
  | _ => "actor unrecorded".toList

/-! ### Minting -/

/-- A text without white space that is not empty. -/
structure Word where
  text : Text
  ne_nil : text ≠ []
  no_space : ∀ c ∈ text, Text.jsSpace c = false

/-- The process that mints: its id, its host and the time. -/
structure Minter where
  pid : Word
  host : Word
  now : Word

structure SharedPauseMintInfo where
  actorEvidence : Option ActorEvidence
  reason : Option Text
  sessionId : Option Text
  expiresAt : Option Text
  indefinite : Bool

/-- A line with a label, unless the value is empty. -/
def labelLine (label : String) (value : Option Text) : List Text :=
  match value with
  | none => []
  | some t => if t.isEmpty then [] else [label.toList ++ t]

def holdMark : Text := "rmd-pause hold ".toList

def holdLine (m : Minter) : Text :=
  holdMark ++ m.pid.text ++ '@' :: m.host.text ++ ' ' :: m.now.text

def anchorLines (m : Minter) (info : SharedPauseMintInfo) : List Text :=
  [holdLine m] ++ labelLine "session: " info.sessionId ++ labelLine "reason: " info.reason ++
  labelLine "expires: " (if info.indefinite then some "indefinite".toList else info.expiresAt) ++
  labelLine "actor: " (info.actorEvidence.map fun e => e.json.stringify)

/-- The message of the commit. -/
def mintAnchor (m : Minter) (info : SharedPauseMintInfo) : Text := Text.join ['\n'] (anchorLines m info)

/-! ### Reading -/

structure SharedPauseAnchorInfo where
  actorEvidence : Option Json
  pid : Text
  host : Text
  timestamp : Text
  sessionId : Option Text
  reason : Option Text
  expiresAt : Option Text
  indefinite : Bool

/-- The lines that the flag `m` sees. -/
def jsLines (t : Text) : List Text := Text.splitBy Text.lineTerminator t

/-- What follows a label, if anything does. -/
def afterLabel (label line : Text) : Option Text :=
  if label.isPrefixOf line && !(line.drop label.length).isEmpty then some (line.drop label.length) else none

/-- `^label(.+)$` with the flag `m`: the first line that has the label. -/
def labelledLine (label : String) (t : Text) : Option Text := (jsLines t).findSome? (afterLabel label.toList)

/-- `(\S+)@(\S+)`: the last `@` with something on both sides. -/
def splitHost (who : Text) : Option (Text × Text) :=
  (List.range who.length).reverse.findSome? fun i =>
    if who[i]? = some '@' ∧ who.take i ≠ [] ∧ who.drop (i + 1) ≠ [] then some (who.take i, who.drop (i + 1)) else none

/-- `^rmd-pause hold (\S+)@(\S+) (\S+)\s*$` on one line. -/
def readHold (line : Text) : Option (Text × Text × Text) := do
  let rest ← afterLabel holdMark line
  let (pid, host) ← splitHost (rest.takeWhile fun c => !Text.jsSpace c)
  match rest.dropWhile fun c => !Text.jsSpace c with
  | ' ' :: rest =>
      let timestamp := rest.takeWhile fun c => !Text.jsSpace c
      if timestamp ≠ [] ∧ (rest.dropWhile fun c => !Text.jsSpace c).all Text.jsSpace then some (pid, host, timestamp)
      else none
  | _ => none

def parseSharedPauseAnchor (stdout : Text) : Option SharedPauseAnchorInfo :=
  match (jsLines stdout).findSome? readHold with
  | none => none
  | some (pid, host, timestamp) =>
      let expires := (labelledLine "expires: " stdout).map Text.trim
      let indefinite := expires = some "indefinite".toList
      some {
        pid := pid, host := host, timestamp := timestamp
        sessionId := (labelledLine "session: " stdout).map Text.trim
        reason := (labelledLine "reason: " stdout).map Text.trim
        indefinite := indefinite
        expiresAt := if indefinite then none else expires
        actorEvidence := (labelledLine "actor: " stdout).bind fun t => (Json.parse t).bind readActorEvidence }

/-! ### Tiers -/

inductive PauseTier
  | held
  | orphaned
  | needsHuman
  | lapsed
deriving DecidableEq

inductive SetterAlive
  | alive
  | dead
  | unknown
deriving DecidableEq

structure PauseTierInput where
  setAt : Text
  expiresAt : Option Text
  indefinite : Bool
  setterAlive : SetterAlive
  now : ℤ

variable (dateParse : Text → Option ℤ)

/-- What the window of a hold says. -/
def windowTier (input : PauseTierInput) : Option PauseTier :=
  match input.expiresAt with
  | none => none
  | some expiresAt =>
      if input.indefinite || expiresAt.isEmpty then none
      else
        match dateParse expiresAt with
        | none => none
        | some expiryMs =>
            if expiryMs ≤ input.now then some .lapsed
            else
              match dateParse input.setAt with
              | none => none
              | some setAtMs =>
                  let halfwayMs : ℚ := setAtMs + (expiryMs - setAtMs) / 2
                  if halfwayMs ≤ input.now then some .needsHuman else none

def evaluatePauseTier (input : PauseTierInput) : PauseTier :=
  (windowTier dateParse input).getD (if input.setterAlive = .dead then .orphaned else .held)

/-- The input for a recovered hold. -/
def SharedPauseAnchorInfo.tierInput (anchor : SharedPauseAnchorInfo) (setterAlive : SetterAlive) (now : ℤ) : PauseTierInput :=
  ⟨anchor.timestamp, anchor.expiresAt, anchor.indefinite, setterAlive, now⟩

/-! ### The terms of a hold -/

/-- An instant as it is written. -/
structure Instant where
  written : Word
  ms : ℤ
  parse_written : dateParse written.text = some ms
  ne_indefinite : written.text ≠ "indefinite".toList

inductive Expiry
  | indefinite
  | expires (instant : Instant dateParse)

structure PauseTerms where
  sessionId : Text
  sessionId_ne_nil : sessionId ≠ []
  reason : Text
  reason_ne_nil : reason ≠ []
  expiry : Expiry dateParse
  actor : ActorEvidence

variable {dateParse}

/-- The expiry of a hold, `none` for an indefinite one. -/
def Expiry.expiresAt : Expiry dateParse → Option Text
  | .indefinite => none
  | .expires instant => some instant.written.text

def Expiry.isIndefinite : Expiry dateParse → Bool
  | .indefinite => true
  | .expires _ => false

def indefiniteWord : Word where
  text := "indefinite".toList
  ne_nil := by decide
  no_space := by
    have hall : "indefinite".toList.all (fun c => !Text.jsSpace c) = true := by decide +kernel
    simpa using hall

/-- The expiry as its line has it. -/
def Expiry.written : Expiry dateParse → Word
  | .indefinite => indefiniteWord
  | .expires instant => instant.written

def PauseTerms.info (terms : PauseTerms dateParse) : SharedPauseMintInfo where
  actorEvidence := some terms.actor
  reason := some terms.reason
  sessionId := some terms.sessionId
  expiresAt := terms.expiry.expiresAt
  indefinite := terms.expiry.isIndefinite

/-- The first line of session or reason, after their own first lines, that has the label. -/
def PauseTerms.freeLine (terms : PauseTerms dateParse) (label : String) : Option Text :=
  ((jsLines terms.sessionId).tail ++ (jsLines terms.reason).tail).findSome? (afterLabel label.toList)

/-! ### Lines of the message -/

theorem afterLabel_append {label rest : Text} (h : rest ≠ []) : afterLabel label (label ++ rest) = some rest := by
  have hstarts : label.isPrefixOf (label ++ rest) = true := List.isPrefixOf_iff_prefix.mpr ⟨rest, rfl⟩
  simp [afterLabel, hstarts, h]

/-- A line that starts with another character does not have the label. -/
theorem afterLabel_of_ne {c d : Char} (label line : Text) (h : c ≠ d) : afterLabel (c :: label) (d :: line) = none := by
  simp [afterLabel, List.isPrefixOf, h]

/-- The lines of a text with a label in front. -/
theorem jsLines_append {label : Text} (h : ∀ c ∈ label, Text.lineTerminator c = false) (t : Text) :
    jsLines (label ++ t) = (label ++ t.takeWhile fun c => !Text.lineTerminator c) :: (jsLines t).tail := by
  obtain ⟨piece, pieces, hpieces, hsplit⟩ := Text.splitBy_append_of_not_sep h t
  obtain ⟨rest, hrest⟩ := Text.splitBy_eq_cons Text.lineTerminator t
  rw [hrest] at hpieces
  obtain ⟨rfl, rfl⟩ := List.cons.inj hpieces
  rw [jsLines, hsplit, jsLines, hrest, List.tail_cons]

theorem Word.trim_text (w : Word) : Text.trim w.text = w.text := by
  rw [Text.trim_eq_self_iff]
  constructor
  · intro c hc
    exact w.no_space c (List.mem_of_mem_head? hc)
  · intro c hc
    exact w.no_space c (List.mem_of_mem_getLast? hc)

theorem Expiry.value_eq (expiry : Expiry dateParse) :
    (if expiry.isIndefinite then some "indefinite".toList else expiry.expiresAt) = some expiry.written.text := by
  cases expiry <;> rfl

/-- The five lines of a message. -/
theorem anchorLines_info (m : Minter) (terms : PauseTerms dateParse) :
    anchorLines m terms.info = [holdLine m, "session: ".toList ++ terms.sessionId, "reason: ".toList ++ terms.reason,
      "expires: ".toList ++ terms.expiry.written.text, "actor: ".toList ++ terms.actor.json.stringify] := by
  have hline (label : String) {t : Text} (h : t ≠ []) : labelLine label (some t) = [label.toList ++ t] := by
    simp [labelLine, h]
  have hactor : terms.actor.json.stringify ≠ [] := by simp [ActorEvidence.json, Json.stringify]
  have hexpires : (if terms.info.indefinite then some "indefinite".toList else terms.info.expiresAt) =
      some terms.expiry.written.text := terms.expiry.value_eq
  rw [anchorLines, hexpires, hline "expires: " terms.expiry.written.ne_nil]
  simp only [PauseTerms.info, Option.map_some, hline _ hactor, hline _ terms.sessionId_ne_nil, hline _ terms.reason_ne_nil]
  rfl

/-- The text up to its first line terminator. -/
def firstLine (t : Text) : Text := t.takeWhile fun c => !Text.lineTerminator c

theorem jsLines_of_no_terminator {t : Text} (h : ∀ c ∈ t, Text.lineTerminator c = false) : jsLines t = [t] :=
  Text.splitBy_of_not_sep h

theorem holdLine_no_terminator (m : Minter) : ∀ c ∈ holdLine m, Text.lineTerminator c = false := by
  have hword (w : Word) := Text.no_terminator_of_no_space w.no_space
  have hlabel : ∀ c ∈ holdMark, Text.lineTerminator c = false := Text.no_terminator_of_all (by decide +kernel)
  have hat : Text.lineTerminator '@' = false := by decide
  have hblank : Text.lineTerminator ' ' = false := by decide
  intro c hc
  simp only [holdLine, List.append_assoc, List.cons_append, List.mem_append, List.mem_cons] at hc
  rcases hc with hc | hc | rfl | hc | rfl | hc
  · exact hlabel c hc
  · exact hword m.pid c hc
  · exact hat
  · exact hword m.host c hc
  · exact hblank
  · exact hword m.now c hc

/-- The lines that the reader sees. -/
theorem jsLines_mintAnchor (m : Minter) (terms : PauseTerms dateParse) :
    jsLines (mintAnchor m terms.info) =
      holdLine m :: ("session: ".toList ++ firstLine terms.sessionId) :: ((jsLines terms.sessionId).tail ++
        ("reason: ".toList ++ firstLine terms.reason) :: ((jsLines terms.reason).tail ++
          ("expires: ".toList ++ terms.expiry.written.text) ::
            ("actor: ".toList ++ firstLine terms.actor.json.stringify) :: (jsLines terms.actor.json.stringify).tail)) := by
  have hsession : ∀ c ∈ "session: ".toList, Text.lineTerminator c = false := Text.no_terminator_of_all (by decide +kernel)
  have hreason : ∀ c ∈ "reason: ".toList, Text.lineTerminator c = false := Text.no_terminator_of_all (by decide +kernel)
  have hactor : ∀ c ∈ "actor: ".toList, Text.lineTerminator c = false := Text.no_terminator_of_all (by decide +kernel)
  have hexpires : ∀ c ∈ "expires: ".toList ++ terms.expiry.written.text, Text.lineTerminator c = false := by
    intro c hc
    rcases List.mem_append.mp hc with hc | hc
    · have hlabel : ∀ c ∈ "expires: ".toList, Text.lineTerminator c = false := Text.no_terminator_of_all (by decide +kernel)
      exact hlabel c hc
    · exact Text.no_terminator_of_no_space terms.expiry.written.no_space c hc
  rw [mintAnchor, anchorLines_info]
  unfold jsLines
  rw [Text.splitBy_join_eq_flatMap (by decide) (List.cons_ne_nil _ _)]
  simp only [List.flatMap_cons, List.flatMap_nil, List.append_nil]
  rw [← jsLines, ← jsLines, ← jsLines, ← jsLines, ← jsLines, jsLines_of_no_terminator (holdLine_no_terminator m),
    jsLines_append hsession, jsLines_append hreason, jsLines_of_no_terminator hexpires, jsLines_append hactor]
  rfl

/-- The expiry that the reader finds: a free line, or the one of the hold. -/
theorem labelledLine_expires (m : Minter) (terms : PauseTerms dateParse) :
    labelledLine "expires: " (mintAnchor m terms.info) =
      (terms.freeLine "expires: ").or (some terms.expiry.written.text) := by
  have hhold : afterLabel "expires: ".toList (holdLine m) = none := afterLabel_of_ne "xpires: ".toList _ (by decide)
  have hsession : afterLabel "expires: ".toList ("session: ".toList ++ firstLine terms.sessionId) = none :=
    afterLabel_of_ne "xpires: ".toList _ (by decide)
  have hreason : afterLabel "expires: ".toList ("reason: ".toList ++ firstLine terms.reason) = none :=
    afterLabel_of_ne "xpires: ".toList _ (by decide)
  have hown : afterLabel "expires: ".toList ("expires: ".toList ++ terms.expiry.written.text) =
      some terms.expiry.written.text := afterLabel_append terms.expiry.written.ne_nil
  rw [labelledLine, jsLines_mintAnchor, List.findSome?_cons, hhold, List.findSome?_cons, hsession, List.findSome?_append,
    List.findSome?_cons, hreason, List.findSome?_append, List.findSome?_cons, hown, PauseTerms.freeLine,
    List.findSome?_append, Option.or_assoc]

theorem firstLine_stringify_ne_nil (e : ActorEvidence) : firstLine e.json.stringify ≠ [] := by
  have hbrace : Text.lineTerminator '\x7b' = false := by decide
  simp [firstLine, ActorEvidence.json, Json.stringify, hbrace]

/-- The actor that the reader finds: a free line, or the first line of the evidence. -/
theorem labelledLine_actor (m : Minter) (terms : PauseTerms dateParse) :
    labelledLine "actor: " (mintAnchor m terms.info) =
      (terms.freeLine "actor: ").or (some (firstLine terms.actor.json.stringify)) := by
  have hhold : afterLabel "actor: ".toList (holdLine m) = none := afterLabel_of_ne "ctor: ".toList _ (by decide)
  have hsession : afterLabel "actor: ".toList ("session: ".toList ++ firstLine terms.sessionId) = none :=
    afterLabel_of_ne "ctor: ".toList _ (by decide)
  have hreason : afterLabel "actor: ".toList ("reason: ".toList ++ firstLine terms.reason) = none :=
    afterLabel_of_ne "ctor: ".toList _ (by decide)
  have hexpires : afterLabel "actor: ".toList ("expires: ".toList ++ terms.expiry.written.text) = none :=
    afterLabel_of_ne "ctor: ".toList _ (by decide)
  have hown : afterLabel "actor: ".toList ("actor: ".toList ++ firstLine terms.actor.json.stringify) =
      some (firstLine terms.actor.json.stringify) := afterLabel_append (firstLine_stringify_ne_nil terms.actor)
  rw [labelledLine, jsLines_mintAnchor, List.findSome?_cons, hhold, List.findSome?_cons, hsession, List.findSome?_append,
    List.findSome?_cons, hreason, List.findSome?_append, List.findSome?_cons, hexpires, List.findSome?_cons, hown,
    PauseTerms.freeLine, List.findSome?_append, Option.or_assoc]

/-! ### The hold line is read -/

theorem splitHost_isSome {pid host : Text} (hpid : pid ≠ []) (hhost : host ≠ []) : (splitHost (pid ++ '@' :: host)).isSome := by
  rw [splitHost, List.findSome?_isSome_iff]
  refine ⟨pid.length, ?_, ?_⟩
  · simp
  · simp [hpid, hhost]

theorem readHold_holdLine (m : Minter) : ∃ pid host, readHold (holdLine m) = some (pid, host, m.now.text) := by
  have hwho : ∀ c ∈ m.pid.text ++ '@' :: m.host.text, Text.jsSpace c = false := by
    have hat : Text.jsSpace '@' = false := by decide
    intro c hc
    rcases List.mem_append.mp hc with hc | hc
    · exact m.pid.no_space c hc
    · rcases List.mem_cons.mp hc with rfl | hc
      · exact hat
      · exact m.host.no_space c hc
  have hrest : afterLabel holdMark (holdLine m) =
      some ((m.pid.text ++ '@' :: m.host.text) ++ ' ' :: m.now.text) := by
    rw [holdLine, List.append_assoc, List.append_assoc, List.append_assoc]
    exact afterLabel_append (by simp)
  obtain ⟨⟨pid, host⟩, hsplit⟩ := Option.isSome_iff_exists.mp (splitHost_isSome m.pid.ne_nil m.host.ne_nil)
  have hnow : m.now.text.takeWhile (fun c => !Text.jsSpace c) = m.now.text :=
    List.takeWhile_eq_self_iff.mpr (by simpa using m.now.no_space)
  have hend : m.now.text.dropWhile (fun c => !Text.jsSpace c) = [] :=
    List.dropWhile_eq_nil_iff.mpr (by simpa using m.now.no_space)
  refine ⟨pid, host, ?_⟩
  rw [readHold, hrest]
  simp only [Option.bind_eq_bind, Option.bind_some, Text.takeWhile_word_append _ hwho, Text.dropWhile_word_append _ hwho, hsplit, hnow,
    hend, List.all_nil, and_true]
  simp [m.now.ne_nil]

theorem findSome?_readHold (m : Minter) (terms : PauseTerms dateParse) :
    ∃ pid host, (jsLines (mintAnchor m terms.info)).findSome? readHold = some (pid, host, m.now.text) := by
  obtain ⟨pid, host, hhold⟩ := readHold_holdLine m
  exact ⟨pid, host, by rw [jsLines_mintAnchor, List.findSome?_cons, hhold]⟩

/-! ### The evidence is read back -/

theorem readableFields_iff {l : List (Text × Json)} : Json.ReadableFields l ↔ ∀ p ∈ l, Json.Readable p.2 := by
  induction l with
  | nil => simp [Json.ReadableFields]
  | cons p l ih => simp [Json.ReadableFields, ih]

theorem readableItems_str (l : List Text) : Json.ReadableItems (l.map .str) := by
  induction l with
  | nil => trivial
  | cons t l ih => exact ⟨trivial, ih⟩

/-- The names of the properties, in order. -/
def evidenceNames : List Text :=
  ["kind", "os_user", "host", "container_id", "session", "agent_markers", "tty", "parents", "caller_class", "ssh",
    "claimed_session_id"].map String.toList

theorem names_optionally (name : String) (value : Option Json) :
    ((optionally name value).map Prod.fst).Sublist [name.toList] := by
  cases value with
  | none => exact List.nil_sublist _
  | some v => exact List.Sublist.refl _

theorem names_sublist (e : ActorEvidence) : (e.fields.map Prod.fst).Sublist evidenceNames := by
  have hall : evidenceNames = ["kind".toList, "os_user".toList, "host".toList] ++ ["container_id".toList] ++
      ["session".toList] ++ ["agent_markers".toList, "tty".toList, "parents".toList, "caller_class".toList] ++
      ["ssh".toList] ++ ["claimed_session_id".toList] := rfl
  rw [hall, ActorEvidence.fields]
  simp only [List.map_append]
  exact ((((List.Sublist.refl _).append (names_optionally _ _)).append (names_optionally _ _)).append
    (List.Sublist.refl _)).append (names_optionally _ _) |>.append (names_optionally _ _)

theorem readable_optionally {name : String} {value : Option Json} (h : ∀ v ∈ value, Json.Readable v) :
    ∀ p ∈ optionally name value, Json.Readable p.2 := by
  cases value with
  | none => simp [optionally]
  | some v => simpa [optionally] using h

theorem readable_json (e : ActorEvidence) : Json.Readable e.json := by
  have hstr (value : Option Text) : ∀ v ∈ value.map Json.str, Json.Readable v := by
    intro v hv
    obtain ⟨t, -, rfl⟩ := Option.mem_map.mp hv
    trivial
  have hssh : ∀ v ∈ e.ssh.map fun s =>
      Json.obj [("client_address".toList, .str s.clientAddress), ("pty".toList, .bool s.pty)], Json.Readable v := by
    intro v hv
    obtain ⟨s, -, rfl⟩ := Option.mem_map.mp hv
    exact ⟨by simp only [List.map_cons, List.map_nil]; decide +kernel, trivial, trivial, trivial⟩
  have htty : Json.Readable (.obj [("stdin".toList, .bool e.ttyStdin), ("stdout".toList, .bool e.ttyStdout)]) :=
    ⟨by simp only [List.map_cons, List.map_nil]; decide +kernel, trivial, trivial, trivial⟩
  refine ⟨(show evidenceNames.Nodup by decide +kernel).sublist (names_sublist e), readableFields_iff.mpr ?_⟩
  intro p hp
  simp only [ActorEvidence.fields, List.append_assoc, List.mem_append] at hp
  rcases hp with hp | hp | hp | hp | hp | hp
  · revert p
    rw [← readableFields_iff]
    exact ⟨trivial, trivial, trivial, trivial⟩
  · exact readable_optionally (hstr e.containerId) p hp
  · exact readable_optionally (hstr e.session) p hp
  · revert p
    rw [← readableFields_iff]
    exact ⟨readableItems_str _, htty, readableItems_str _, trivial, trivial⟩
  · exact readable_optionally hssh p hp
  · exact readable_optionally (hstr e.claimedSessionId) p hp

theorem readActorEvidence_json (e : ActorEvidence) : readActorEvidence e.json = some e.json := by
  have huser : Row.str e.fields "os_user" = some e.osUser := rfl
  have hhost : Row.str e.fields "host" = some e.host := rfl
  have hclass : Row.str e.fields "caller_class" = some e.callerClass.text := by
    obtain ⟨agent, osUser, host, containerId, session, markers, stdin, stdout, parents, callerClass, ssh, claimed⟩ := e
    cases containerId with
    | none => cases session <;> rfl
    | some id => cases session <;> rfl
  have hknown : callerClasses.contains e.callerClass.text = true := by
    cases e.callerClass <;> decide +kernel
  simp only [readActorEvidence, ActorEvidence.json, huser, hhost, hclass, Option.isSome_some, Option.any_some, hknown,
    Bool.and_self, if_true]

/-- The first line of the evidence reads as the evidence exactly if there is no other. -/
theorem read_firstLine_iff (e : ActorEvidence) :
    (Json.parse (firstLine e.json.stringify)).bind readActorEvidence = some e.json ↔
      ∀ c ∈ e.json.stringify, Text.lineTerminator c = false := by
  constructor
  · intro h
    -- a text that reads as the evidence is not shorter than the one written
    obtain ⟨j, hparse, hread⟩ := Option.bind_eq_some_iff.mp h
    have hj : j = e.json := by
      unfold readActorEvidence at hread
      split at hread
      · split at hread
        · exact Option.some.inj hread
        · cases hread
      · cases hread
    rw [hj] at hparse
    have hlength := Json.length_stringify_le hparse
    have hstarts : firstLine e.json.stringify <+: e.json.stringify := List.takeWhile_prefix _
    have hwhole : firstLine e.json.stringify = e.json.stringify := hstarts.eq_of_length_le hlength
    intro c hc
    rw [← hwhole] at hc
    simpa using List.mem_takeWhile_imp hc
  · intro h
    have hwhole : firstLine e.json.stringify = e.json.stringify :=
      List.takeWhile_eq_self_iff.mpr (by simpa using h)
    rw [hwhole, Json.parse_stringify (readable_json e), Option.bind_some, readActorEvidence_json]

/-! ### When the terms are kept -/

/-- The reader recovers the indefinite flag, the expiry and the evidence. -/
def Recovers (terms : PauseTerms dateParse) (anchor : SharedPauseAnchorInfo) : Prop :=
  anchor.indefinite = terms.expiry.isIndefinite ∧ anchor.expiresAt = terms.expiry.expiresAt ∧
    anchor.actorEvidence = some terms.actor.json

/-- An indefinite hold is not read as waiting for a human or lapsed, a timed one not as lapsed before its expiry. -/
def TiersKept (terms : PauseTerms dateParse) (anchor : SharedPauseAnchorInfo) : Prop :=
  ∀ setter now, match terms.expiry with
    | .indefinite =>
        evaluatePauseTier dateParse (anchor.tierInput setter now) ≠ .needsHuman ∧
        evaluatePauseTier dateParse (anchor.tierInput setter now) ≠ .lapsed
    | .expires instant => now < instant.ms → evaluatePauseTier dateParse (anchor.tierInput setter now) ≠ .lapsed

/-- A line of session or reason that has the label of the expiry or of the actor says what the hold says; without one
for the actor, the evidence is on one line. -/
structure NoForeignTerms (terms : PauseTerms dateParse) : Prop where
  expires : ∀ line, terms.freeLine "expires: " = some line → Text.trim line = terms.expiry.written.text
  actor : ∀ line, terms.freeLine "actor: " = some line → (Json.parse line).bind readActorEvidence = some terms.actor.json
  oneLine : terms.freeLine "actor: " = none → ∀ c ∈ terms.actor.json.stringify, Text.lineTerminator c = false

/-- The anchor that is read from the message. -/
theorem parse_mintAnchor (m : Minter) (terms : PauseTerms dateParse) :
    ∃ anchor, parseSharedPauseAnchor (mintAnchor m terms.info) = some anchor ∧
      anchor.indefinite = decide (Text.trim ((terms.freeLine "expires: ").getD terms.expiry.written.text) = "indefinite".toList) ∧
      anchor.expiresAt = (if Text.trim ((terms.freeLine "expires: ").getD terms.expiry.written.text) = "indefinite".toList
        then none else some (Text.trim ((terms.freeLine "expires: ").getD terms.expiry.written.text))) ∧
      anchor.actorEvidence = (Json.parse ((terms.freeLine "actor: ").getD (firstLine terms.actor.json.stringify))).bind
        readActorEvidence := by
  obtain ⟨pid, host, hhold⟩ := findSome?_readHold m terms
  have hexpires : (labelledLine "expires: " (mintAnchor m terms.info)).map Text.trim =
      some (Text.trim ((terms.freeLine "expires: ").getD terms.expiry.written.text)) := by
    rw [labelledLine_expires]
    cases terms.freeLine "expires: " <;> rfl
  have hactor : labelledLine "actor: " (mintAnchor m terms.info) =
      some ((terms.freeLine "actor: ").getD (firstLine terms.actor.json.stringify)) := by
    rw [labelledLine_actor]
    cases terms.freeLine "actor: " <;> rfl
  refine ⟨_, by rw [parseSharedPauseAnchor, hhold], ?_⟩
  simp only [hexpires, hactor, Option.some.injEq, Option.bind_some, and_true]

/-- The expiry is recovered exactly if the line that is taken has the text of the hold. -/
theorem expiry_recovered_iff (expiry : Expiry dateParse) (raw : Text) :
    decide (raw = "indefinite".toList) = expiry.isIndefinite ∧
      (if raw = "indefinite".toList then none else some raw) = expiry.expiresAt ↔ raw = expiry.written.text := by
  cases expiry with
  | indefinite =>
      have hword : (Expiry.indefinite : Expiry dateParse).written.text = "indefinite".toList := rfl
      rw [hword]
      by_cases hraw : raw = "indefinite".toList
      · simp only [hraw, decide_true, Expiry.isIndefinite, if_true, Expiry.expiresAt, and_self]
      · simp only [hraw, decide_false, Expiry.isIndefinite, Bool.false_eq_true, false_and]
  | expires instant =>
      have hword : (Expiry.expires instant).written.text = instant.written.text := rfl
      rw [hword]
      by_cases hraw : raw = "indefinite".toList
      · have hne : raw ≠ instant.written.text := fun h => instant.ne_indefinite (h.symm.trans hraw)
        simp only [hraw, decide_true, Expiry.isIndefinite, Bool.true_eq_false, false_and, false_iff]
        rw [← hraw]
        exact hne
      · simp only [hraw, decide_false, Expiry.isIndefinite, if_false, Expiry.expiresAt, true_and, Option.some.injEq]

/-- The tiers follow from the terms. -/
theorem tiersKept_of_recovers {terms : PauseTerms dateParse} {anchor : SharedPauseAnchorInfo} (h : Recovers terms anchor) :
    TiersKept terms anchor := by
  obtain ⟨hindefinite, hexpires, -⟩ := h
  have helse (input : PauseTierInput) (hwindow : windowTier dateParse input = none) :
      evaluatePauseTier dateParse input ≠ .needsHuman ∧ evaluatePauseTier dateParse input ≠ .lapsed := by
    rw [evaluatePauseTier, hwindow, Option.getD_none]
    split <;> simp
  intro setter now
  cases hexpiry : terms.expiry with
  | indefinite =>
      rw [hexpiry, Expiry.expiresAt] at hexpires
      apply helse
      simp [windowTier, SharedPauseAnchorInfo.tierInput, hexpires]
  | expires instant =>
      rw [hexpiry, Expiry.expiresAt] at hexpires
      rw [hexpiry, Expiry.isIndefinite] at hindefinite
      intro hnow
      have hparse := instant.parse_written
      have hne := instant.written.ne_nil
      have hwindow : windowTier dateParse (anchor.tierInput setter now) ≠ some .lapsed := by
        simp only [windowTier, SharedPauseAnchorInfo.tierInput, hexpires, hindefinite, Bool.false_or, List.isEmpty_iff, hne,
          if_false, hparse, if_neg (not_le.mpr hnow)]
        split
        · simp
        · split <;> simp
      cases htier : windowTier dateParse (anchor.tierInput setter now) with
      | none => exact (helse _ htier).2
      | some tier =>
          rw [evaluatePauseTier, htier, Option.getD_some]
          rintro rfl
          exact hwindow htier

/-- A shared pause keeps its terms exactly if no line of session or reason carries others, and the evidence that is
read is on one line. -/
theorem terms_kept_iff (dateParse : Text → Option ℤ) (m : Minter) (terms : PauseTerms dateParse) :
    (∃ anchor, parseSharedPauseAnchor (mintAnchor m terms.info) = some anchor ∧ Recovers terms anchor ∧
      TiersKept terms anchor) ↔ NoForeignTerms terms := by
  obtain ⟨anchor, hparse, hindefinite, hexpires, hactor⟩ := parse_mintAnchor m terms
  have hexpiry := expiry_recovered_iff terms.expiry (Text.trim ((terms.freeLine "expires: ").getD terms.expiry.written.text))
  have hrecovers : Recovers terms anchor ↔
      Text.trim ((terms.freeLine "expires: ").getD terms.expiry.written.text) = terms.expiry.written.text ∧
      (Json.parse ((terms.freeLine "actor: ").getD (firstLine terms.actor.json.stringify))).bind readActorEvidence =
        some terms.actor.json := by
    rw [Recovers, hindefinite, hexpires, hactor, ← and_assoc, hexpiry]
  have hmain : Recovers terms anchor ↔ NoForeignTerms terms := by
    rw [hrecovers]
    constructor
    · rintro ⟨htext, hread⟩
      refine ⟨fun line hline => ?_, fun line hline => ?_, fun hnone => ?_⟩
      · rwa [hline, Option.getD_some] at htext
      · rwa [hline, Option.getD_some] at hread
      · rw [hnone, Option.getD_none] at hread
        exact (read_firstLine_iff terms.actor).mp hread
    · intro h
      constructor
      · cases hline : terms.freeLine "expires: " with
        | none => exact terms.expiry.written.trim_text
        | some line => exact h.expires line hline
      · cases hline : terms.freeLine "actor: " with
        | none => exact (read_firstLine_iff terms.actor).mpr (h.oneLine hline)
        | some line => exact h.actor line hline
  constructor
  · rintro ⟨anchor', hparse', hrec, -⟩
    rw [hparse] at hparse'
    obtain rfl := Option.some.inj hparse'
    exact hmain.mp hrec
  · intro h
    exact ⟨anchor, hparse, hmain.mpr h, tiersKept_of_recovers (hmain.mpr h)⟩

/-! ### A reason with a line of its own -/

/-- `Date.parse` at two instants. -/
def twoDates (t : Text) : Option ℤ :=
  if t = "2000-01-01T00:00:00.000Z".toList then some 946684800000
  else if t = "2026-01-01T00:00:00.000Z".toList then some 1767225600000 else none

def wordOf (t : Text) (h : (t ≠ []) ∧ t.all (fun c => !Text.jsSpace c) = true) : Word where
  text := t
  ne_nil := h.1
  no_space := by simpa using h.2

def hostMinter : Minter where
  pid := wordOf "7".toList (by decide +kernel)
  host := wordOf "mini".toList (by decide +kernel)
  now := wordOf "2026-01-01T00:00:00.000Z".toList (by decide +kernel)

def operator : ActorEvidence where
  agent := false
  osUser := "op".toList
  host := "mini".toList
  containerId := none
  session := none
  agentMarkers := []
  ttyStdin := true
  ttyStdout := true
  parents := ["zsh".toList]
  callerClass := .humanAtTerminal
  ssh := none
  claimedSessionId := none

/-- An indefinite hold whose reason quotes another hold. -/
def quotedHold : PauseTerms twoDates where
  sessionId := "mini-7".toList
  sessionId_ne_nil := by decide +kernel
  reason := "as before:\nexpires: 2000-01-01T00:00:00.000Z".toList
  reason_ne_nil := by decide +kernel
  expiry := .indefinite
  actor := operator

/-- The indefinite hold is read as one that has lapsed. -/
theorem reason_ends_pause :
    ∃ anchor, parseSharedPauseAnchor (mintAnchor hostMinter quotedHold.info) = some anchor ∧
      anchor.indefinite = false ∧ anchor.expiresAt = some "2000-01-01T00:00:00.000Z".toList ∧
      evaluatePauseTier twoDates (anchor.tierInput .alive 1767225600000) = .lapsed := by
  obtain ⟨anchor, hparse, hindefinite, hexpires, -⟩ := parse_mintAnchor hostMinter quotedHold
  have hline : Text.trim ((quotedHold.freeLine "expires: ").getD quotedHold.expiry.written.text) =
      "2000-01-01T00:00:00.000Z".toList := by decide +kernel
  have hne : "2000-01-01T00:00:00.000Z".toList ≠ "indefinite".toList := by decide +kernel
  rw [hline, decide_eq_false hne] at hindefinite
  rw [hline, if_neg hne] at hexpires
  refine ⟨anchor, hparse, hindefinite, hexpires, ?_⟩
  have hdate : twoDates "2000-01-01T00:00:00.000Z".toList = some 946684800000 := by decide +kernel
  have hempty : "2000-01-01T00:00:00.000Z".toList.isEmpty = false := by decide +kernel
  have hwindow : windowTier twoDates (anchor.tierInput .alive 1767225600000) = some .lapsed := by
    simp only [windowTier, SharedPauseAnchorInfo.tierInput, hexpires, hindefinite, hempty, Bool.false_or, Bool.false_eq_true,
      if_false, hdate]
    rfl
  rw [evaluatePauseTier, hwindow, Option.getD_some]

end Remudero.Fleet
