import Remudero.Fleet.Anchor
import Remudero.Lib.Blocks
import Remudero.Lib.Record
import Remudero.Lib.Transition

/-! # Reading the shared pause

`checkSharedPause` of `lib/fleet-control.ts` with its asynchronous refresh, for one dependency object that has a
`runAsync`.  A check answers from the last read that completed and begins another one when none is in flight and the
last began long enough ago; a read runs `ls-remote` and, for an anchor it has not met, `cat-file`; when it completes
it arms a timer that begins the next one.  A disposal stops the refresh state and forgets it, so the next check makes
a new one, while a read of the old state may still complete.

Every event of the process is a step: a check, the completion of either command (with any result, or rejected), a
timer, a disposal.  Refresh states are numbered as they are made; `reads`, `armed`, `completed` and `begun` are not
fields of the source's record but what the event loop holds for it.

* `World.inv_of_run`: what holds of every state in every run.
* `World.Run.without`: the completions of a state that was disposed of can be taken out of a run; every check still answers
  clear when it did and holds when it did.
* `shared_pause_fails_closed`: a check answers clear only after a read of the current state that found the ref absent,
  two reads of one state are never in flight together, and what a disposed state still completes changes no answer
  from held to clear and begins no read. -/

namespace Remudero.Fleet

open Remudero.Lib

/-! ### What a read says -/

/-- What `git` answers. -/
structure GitResult where
  status : ℤ
  stdout : Text
deriving DecidableEq

/-- `ls-remote` succeeded and printed no ref: nothing but white space. -/
def GitResult.NamesNoRef (res : GitResult) : Prop := res.status = 0 ∧ ∀ c ∈ res.stdout, Text.jsSpace c = true

structure SharedPauseLsRemote where
  status : ℤ
  sha : Option Text
deriving DecidableEq

/-- A text that is there and not empty. -/
def truthy (t : Option Text) : Option Text := t.filter fun t => !t.isEmpty

def parseSharedPauseLsRemote (res : GitResult) : SharedPauseLsRemote :=
  if res.status ≠ 0 then ⟨res.status, none⟩
  else
    let line := (Text.splitBy (· == '\n') (Text.trim res.stdout)).headD []
    let sha := (Text.splitBy (· == '\t') line).head?.map Text.trim
    ⟨0, truthy sha⟩

def sharedPauseRef : Text := "refs/rmd-pause/hold".toList

/-- The verdict of a read that was rejected. -/
def SharedPauseLsRemote.rejected : SharedPauseLsRemote := ⟨1, none⟩

/-- The verdict on an answer of `ls-remote`, or on its rejection. -/
def lsRemoteVerdict : Option GitResult → SharedPauseLsRemote
  | none => .rejected
  | some res => parseSharedPauseLsRemote res

/-- The anchor of a ref that was read and is there. -/
def SharedPauseLsRemote.held (ls : SharedPauseLsRemote) : Option Text := if ls.status = 0 then truthy ls.sha else none

/-- A hold and who set it, as far as its anchor says. -/
def heldDetail (sha : Text) : Option SharedPauseAnchorInfo → Text
  | some anchor =>
      let reasonPart := ((truthy anchor.reason).map fun r => " — reason: ".toList ++ r).getD []
      let untilPart :=
        if anchor.indefinite then " — INDEFINITE (escalates, never lapses)".toList
        else ((truthy anchor.expiresAt).map fun e => " — until ".toList ++ e).getD []
      "PAUSE held on ".toList ++ sharedPauseRef ++ " — set by pid ".toList ++ anchor.pid ++ '@' :: anchor.host ++
        " at ".toList ++ anchor.timestamp ++ reasonPart ++ untilPart ++ "; actor: ".toList ++
        describeActorEvidence anchor.actorEvidence ++ " — run `rmd resume --fleet` to clear".toList
  | none =>
      "PAUSE held on ".toList ++ sharedPauseRef ++ " — UNATTRIBUTABLE (anchor ".toList ++ sha ++
        " unreadable, setter cannot be recovered) — run `rmd resume --fleet` to clear".toList

def unreachableDetail : Text :=
  "cannot reach origin to read ".toList ++ sharedPauseRef ++
    " — holding rather than dispatching optimistically (an unreachable remote is never read as clear)".toList

/-- The detail of a hold, or nothing when the ref is absent. -/
def sharedPauseReadDetail (ls : SharedPauseLsRemote) (anchor : Option SharedPauseAnchorInfo) : Option Text :=
  match ls.held with
  | some sha => some (heldDetail sha anchor)
  | none => if ls.status ≠ 0 then some unreachableDetail else none

/-- The read succeeded and found no ref. -/
def SharedPauseLsRemote.Absent (ls : SharedPauseLsRemote) : Prop := ls.status = 0 ∧ truthy ls.sha = none

theorem sharedPauseReadDetail_eq_none_iff {ls : SharedPauseLsRemote} {anchor : Option SharedPauseAnchorInfo} :
    sharedPauseReadDetail ls anchor = none ↔ ls.Absent := by
  unfold sharedPauseReadDetail SharedPauseLsRemote.held SharedPauseLsRemote.Absent
  by_cases hstatus : ls.status = 0
  · cases hsha : truthy ls.sha with
    | none => simp [hstatus]
    | some sha => simp [hstatus]
  · simp [hstatus]

/-- The first field of a line that starts with no white space is not blank. -/
theorem firstField_ne_nil {t : Text} (ht : Text.trim t = t) (hne : t ≠ []) :
    Text.trim (((t.takeWhile fun c => !(c == '\n'))).takeWhile fun c => !(c == '\t')) ≠ [] := by
  obtain ⟨c, rest, rfl⟩ := List.exists_cons_of_ne_nil hne
  have hc : Text.jsSpace c = false := (Text.trim_eq_self_iff.mp ht).1 c rfl
  have hother : ∀ d, Text.jsSpace d = true → c ≠ d := by
    rintro d hd rfl
    rw [hc] at hd
    cases hd
  have hmem : c ∈ ((c :: rest).takeWhile fun c => !(c == '\n')).takeWhile fun c => !(c == '\t') := by
    simp [hother '\n' (by decide), hother '\t' (by decide)]
  intro hnil
  rw [Text.trim_eq_nil.mp hnil c hmem] at hc
  cases hc

/-- The verdict is that the ref is absent exactly when `git` succeeded and printed none. -/
theorem absent_parseSharedPauseLsRemote {res : GitResult} : (parseSharedPauseLsRemote res).Absent ↔ res.NamesNoRef := by
  unfold parseSharedPauseLsRemote SharedPauseLsRemote.Absent GitResult.NamesNoRef
  by_cases hstatus : res.status = 0
  · obtain ⟨lines, hlines⟩ := Text.splitBy_eq_cons (· == '\n') (Text.trim res.stdout)
    obtain ⟨fields, hfields⟩ := Text.splitBy_eq_cons (· == '\t') ((Text.trim res.stdout).takeWhile fun c => !(c == '\n'))
    simp only [if_neg (not_not.mpr hstatus), hlines, List.headD_cons, hfields]
    rw [← Text.trim_eq_nil]
    by_cases hnil : Text.trim res.stdout = []
    · have hblank : Text.trim [] = [] := rfl
      simp [hstatus, hnil, truthy, hblank]
    · have hfield := firstField_ne_nil (Text.trim_trim res.stdout) hnil
      simp [hstatus, hnil, truthy, hfield]
  · simp [hstatus]

theorem namesNoRef_of_clear {answer : Option GitResult} {anchor : Option SharedPauseAnchorInfo}
    (h : sharedPauseReadDetail (lsRemoteVerdict answer) anchor = none) : ∃ res, answer = some res ∧ res.NamesNoRef := by
  rw [sharedPauseReadDetail_eq_none_iff] at h
  cases answer with
  | none => exact absurd h.1 (by decide)
  | some res => exact ⟨res, rfl, absent_parseSharedPauseLsRemote.mp h⟩

/-! ### A refresh state -/

/-- `SHARED_PAUSE_REFRESH_MS` -/
def sharedPauseRefreshMs : ℤ := 1000

/-- The command that a call of `refreshSharedPause` waits for. -/
inductive Awaiting
  | lsRemote
  /-- `answer`: what `ls-remote` had answered -/
  | catFile (answer : GitResult) (sha : Text)
deriving DecidableEq

structure SharedPauseRefresh where
  detail : Option Text
  nextReadAt : ℤ
  inFlight : Bool
  /-- the handle of the timer that was set last -/
  timer : Option ℕ
  stopped : Bool
  /-- the calls of `refreshSharedPause` that have not returned -/
  reads : List Awaiting
  /-- the timers that have neither fired nor been cleared -/
  armed : List ℕ
  /-- the answers of `ls-remote` in the reads that completed, oldest first; `none` for a rejection -/
  completed : List (Option GitResult)
  /-- how many reads began -/
  begun : ℕ

namespace SharedPauseRefresh

def made : SharedPauseRefresh where
  detail := sharedPauseReadDetail .rejected none
  nextReadAt := 0
  inFlight := false
  timer := none
  stopped := false
  reads := []
  armed := []
  completed := []
  begun := 0

def clearTimeout (s : SharedPauseRefresh) : SharedPauseRefresh :=
  { s with armed := s.armed.filter fun k => some k ≠ s.timer }

/-- `refreshSharedPause` from its verdict on. -/
def settle (s : SharedPauseRefresh) (answer : Option GitResult) (anchor : Option SharedPauseAnchorInfo) :
    SharedPauseRefresh :=
  { s with
    detail := sharedPauseReadDetail (lsRemoteVerdict answer) anchor
    inFlight := false
    timer := if s.stopped then s.timer else some s.completed.length
    armed := if s.stopped then s.armed else s.completed.length :: s.armed
    completed := s.completed ++ [answer] }

/-- `throws`: `runAsync` throws before it gives a promise. -/
def beginSharedPauseRefresh (s : SharedPauseRefresh) (now : ℤ) (throws : Bool) : SharedPauseRefresh :=
  let s := { s.clearTimeout with
    inFlight := true
    nextReadAt := now + sharedPauseRefreshMs
    begun := s.begun + 1 }
  if throws then s.settle none none else { s with reads := .lsRemote :: s.reads }

/-- The call that waited for `a` goes on. -/
def resume (s : SharedPauseRefresh) (a : Awaiting) : SharedPauseRefresh := { s with reads := s.reads.erase a }

def dispose (s : SharedPauseRefresh) : SharedPauseRefresh := { s with stopped := true }.clearTimeout

end SharedPauseRefresh

abbrev AnchorMemo := Record Text (Option SharedPauseAnchorInfo)

/-- A verdict goes on to the anchor.  `throws`: `runAsync` throws before it gives a promise for `cat-file`. -/
def readVerdict (memo : AnchorMemo) (s : SharedPauseRefresh) (answer : GitResult) (throws : Bool) :
    AnchorMemo × SharedPauseRefresh :=
  match (parseSharedPauseLsRemote answer).held with
  | none => (memo, s.settle (some answer) none)
  | some sha =>
      match memo.get? sha with
      | some anchor => (memo, s.settle (some answer) anchor)
      | none =>
          if throws then (memo.set sha none, s.settle (some answer) none)
          else (memo, { s with reads := .catFile answer sha :: s.reads })

section

variable {memo : AnchorMemo} {s : SharedPauseRefresh} {answer : GitResult} {sha : Text}

theorem readVerdict_absent (hheld : (parseSharedPauseLsRemote answer).held = none) (throws : Bool) :
    readVerdict memo s answer throws = (memo, s.settle (some answer) none) := by
  simp only [readVerdict, hheld]

theorem readVerdict_known {anchor : Option SharedPauseAnchorInfo} (hheld : (parseSharedPauseLsRemote answer).held = some sha)
    (hmemo : memo.get? sha = some anchor) (throws : Bool) :
    readVerdict memo s answer throws = (memo, s.settle (some answer) anchor) := by
  simp only [readVerdict, hheld, hmemo]

theorem readVerdict_refused (hheld : (parseSharedPauseLsRemote answer).held = some sha) (hmemo : memo.get? sha = none) :
    readVerdict memo s answer true = (memo.set sha none, s.settle (some answer) none) := by
  simp only [readVerdict, hheld, hmemo, if_true]

theorem readVerdict_await (hheld : (parseSharedPauseLsRemote answer).held = some sha) (hmemo : memo.get? sha = none) :
    readVerdict memo s answer false = (memo, { s with reads := .catFile answer sha :: s.reads }) := by
  simp [readVerdict, hheld, hmemo]

end

/-- `ls-remote` is over: it answered, or it was rejected. -/
def afterLsRemote (memo : AnchorMemo) (s : SharedPauseRefresh) (res : Option GitResult) (throws : Bool) :
    AnchorMemo × SharedPauseRefresh :=
  match res with
  | none => (memo, s.settle none none)
  | some res => readVerdict memo s res throws

/-- The anchor that `cat-file` gives, if any. -/
def catAnchor : Option GitResult → Option SharedPauseAnchorInfo
  | none => none
  | some res => if res.status = 0 then parseSharedPauseAnchor res.stdout else none

/-- `cat-file` is over. -/
def afterCatFile (memo : AnchorMemo) (s : SharedPauseRefresh) (answer : GitResult) (sha : Text)
    (res : Option GitResult) : AnchorMemo × SharedPauseRefresh :=
  (memo.set sha (catAnchor res), s.settle (some answer) (catAnchor res))

/-! ### The process -/

/-- `RECYCLE_PAUSE_DETAIL` -/
def recyclePauseDetail : Text := "PAUSE requested: container recycle (deploy/recycle-container.sh)".toList

def isRecyclePauseDetail (detail : Text) : Bool :=
  detail == recyclePauseDetail ||
    match lastIndexOf "; actor: ".toList detail with
    | some actorAt => detail.take actorAt == recyclePauseDetail
    | none => false

/-- The refresh states made for the dependency object, the one `sharedPauseRefreshes` has for it, and its memo. -/
structure World where
  states : ℕ → SharedPauseRefresh
  count : ℕ
  current : Option ℕ
  memo : AnchorMemo

/-- What a check reads from outside: `pauseDetail`, the clock before and inside `beginSharedPauseRefresh`, and whether
`runAsync` throws. -/
structure CheckInput where
  localHold : Option Text
  now : ℤ
  beganAt : ℤ
  throws : Bool

/-- A check begins a read when none is in flight and the last one began long enough ago. -/
def SharedPauseRefresh.refreshIfDue (s : SharedPauseRefresh) (input : CheckInput) : SharedPauseRefresh :=
  if !s.inFlight && decide (s.nextReadAt ≤ input.now) then s.beginSharedPauseRefresh input.beganAt input.throws else s

inductive Event
  | check (input : CheckInput)
  /-- `ls-remote` of a read of state `i` is over -/
  | lsRemoteDone (i : ℕ) (res : Option GitResult) (throws : Bool)
  /-- `cat-file` of a read of state `i` is over -/
  | catFileDone (i : ℕ) (answer : GitResult) (sha : Text) (res : Option GitResult)
  /-- a timer of state `i` fires -/
  | fire (i k : ℕ) (now : ℤ) (throws : Bool)
  /-- `disposeSharedPauseRefresh` -/
  | dispose

/-- The event is the completion of a command for a read of state `i`. -/
def Event.completes (i : ℕ) : Event → Bool
  | .lsRemoteDone j _ _ => j == i
  | .catFileDone j _ _ _ => j == i
  | _ => false

namespace World

def start : World := ⟨fun _ => .made, 0, none, ⟨[], by simp⟩⟩

def put (w : World) (i : ℕ) (s : SharedPauseRefresh) : World := { w with states := Function.update w.states i s }

/-- The state a check looks at. -/
def obtainState (w : World) : World × ℕ :=
  match w.current with
  | some i => (w, i)
  | none => ({ w.put w.count .made with count := w.count + 1, current := some w.count }, w.count)

/-- A local hold that is not a recycle's own. -/
def operatorHold (localHold : Option Text) : Bool := localHold.any fun detail => !isRecyclePauseDetail detail

def checkSharedPause (w : World) (input : CheckInput) : Option Text × World :=
  if operatorHold input.localHold then (input.localHold, w)
  else
    let (w, i) := w.obtainState
    let s := (w.states i).refreshIfDue input
    (s.detail.or input.localHold, w.put i s)

/-- One event; `none` when it is not possible in the world. -/
def next (w : World) : Event → Option World
  | .check input => some (w.checkSharedPause input).2
  | .lsRemoteDone i res throws =>
      if .lsRemote ∈ (w.states i).reads then
        let (memo, s) := afterLsRemote w.memo ((w.states i).resume .lsRemote) res throws
        some { w.put i s with memo := memo }
      else none
  | .catFileDone i answer sha res =>
      if .catFile answer sha ∈ (w.states i).reads then
        let (memo, s) := afterCatFile w.memo ((w.states i).resume (.catFile answer sha)) answer sha res
        some { w.put i s with memo := memo }
      else none
  | .fire i k now throws =>
      if k ∈ (w.states i).armed then
        let s := w.states i
        some (w.put i ({ s with armed := s.armed.filter (· ≠ k) }.beginSharedPauseRefresh now throws))
      else none
  | .dispose =>
      match w.current with
      | some i => some { w.put i (w.states i).dispose with current := none }
      | none => some w

def Step (w : World) (e : Event) (w' : World) : Prop := w.next e = some w'

end World

/-! ### What holds of a refresh state -/

namespace SharedPauseRefresh

variable {s s' : SharedPauseRefresh} {a : Awaiting} {answer : Option GitResult} {anchor : Option SharedPauseAnchorInfo}

/-- At most one read is in flight, no timer runs beside it or after a disposal, and the detail is clear only after a
read that found no ref. -/
structure Ok (s : SharedPauseRefresh) : Prop where
  reads_length : s.reads.length = if s.inFlight then 1 else 0
  armed_timer : ∀ k ∈ s.armed, s.timer = some k
  armed_idle : s.armed ≠ [] → s.inFlight = false ∧ s.stopped = false
  clear : s.detail = none → ∃ res, s.completed.getLast? = some (some res) ∧ res.NamesNoRef

theorem ok_made : made.Ok where
  reads_length := rfl
  armed_timer := by simp [made]
  armed_idle := by simp [made]
  clear := by
    intro h
    obtain ⟨res, hnone, -⟩ := @namesNoRef_of_clear none none h
    cases hnone

theorem Ok.reads_eq_nil (h : s.Ok) (hidle : s.inFlight = false) : s.reads = [] := by
  have hlength := h.reads_length
  simpa [hidle] using hlength

theorem Ok.inFlight_of_mem (h : s.Ok) (ha : a ∈ s.reads) : s.inFlight = true := by
  by_contra hidle
  rw [h.reads_eq_nil (by simpa using hidle)] at ha
  cases ha

theorem Ok.resume_reads (h : s.Ok) (ha : a ∈ s.reads) : (s.resume a).reads = [] := by
  have hlength := h.reads_length
  rw [h.inFlight_of_mem ha, if_pos rfl] at hlength
  obtain ⟨b, hb⟩ := List.length_eq_one_iff.mp hlength
  rw [hb, List.mem_singleton] at ha
  simp [resume, hb, ha]

theorem Ok.armed_of_mem (h : s.Ok) (ha : a ∈ s.reads) : s.armed = [] := by
  by_contra harmed
  have hidle := (h.armed_idle harmed).1
  rw [h.inFlight_of_mem ha] at hidle
  cases hidle

theorem Ok.armed_of_stopped (h : s.Ok) (hstopped : s.stopped = true) : s.armed = [] := by
  by_contra harmed
  have hlive := (h.armed_idle harmed).2
  rw [hstopped] at hlive
  cases hlive

/-- The only timer that may run is the one that was set last. -/
theorem Ok.clearTimeout_armed (h : s.Ok) : s.clearTimeout.armed = [] := by
  show s.armed.filter (fun k => some k ≠ s.timer) = []
  rw [List.filter_eq_nil_iff]
  intro k hk
  simp [h.armed_timer k hk]

/-- A read that ends where no other read and no timer is left. -/
theorem ok_settle (hreads : s.reads = []) (harmed : s.armed = []) : (s.settle answer anchor).Ok where
  reads_length := by simp [settle, hreads]
  armed_timer := by
    intro k hk
    cases hstopped : s.stopped <;> simp_all [settle]
  armed_idle := by
    intro hne
    cases hstopped : s.stopped <;> simp_all [settle]
  clear := by
    intro hclear
    obtain ⟨res, rfl, hres⟩ := namesNoRef_of_clear hclear
    exact ⟨res, by simp [settle], hres⟩

theorem Ok.beginSharedPauseRefresh (h : s.Ok) (hidle : s.inFlight = false) (now : ℤ) (throws : Bool) :
    (s.beginSharedPauseRefresh now throws).Ok := by
  have hreads : s.clearTimeout.reads = [] := h.reads_eq_nil hidle
  have harmed := h.clearTimeout_armed
  unfold SharedPauseRefresh.beginSharedPauseRefresh
  cases throws with
  | true => exact ok_settle hreads harmed
  | false =>
      exact {
        reads_length := by simp [hreads]
        armed_timer := by simp [harmed]
        armed_idle := by simp [harmed]
        clear := h.clear }

/-- A read goes on to its next command. -/
theorem Ok.await (h : s.Ok) (ha : a ∈ s.reads) (b : Awaiting) :
    { s.resume a with reads := b :: (s.resume a).reads }.Ok where
  reads_length := by
    rw [h.resume_reads ha, List.length_singleton]
    exact (if_pos (h.inFlight_of_mem ha)).symm
  armed_timer := h.armed_timer
  armed_idle := h.armed_idle
  clear := h.clear

theorem Ok.settle_resume (h : s.Ok) (ha : a ∈ s.reads) : ((s.resume a).settle answer anchor).Ok :=
  ok_settle (h.resume_reads ha) (h.armed_of_mem ha)

theorem Ok.dispose (h : s.Ok) : s.dispose.Ok where
  reads_length := h.reads_length
  armed_timer := by
    intro k hk
    exact h.armed_timer k (List.mem_of_mem_filter hk)
  armed_idle := by
    intro hne
    exact absurd h.clearTimeout_armed hne
  clear := h.clear

/-- A timer that fires runs no more. -/
theorem Ok.disarm (h : s.Ok) (k : ℕ) : { s with armed := s.armed.filter (· ≠ k) }.Ok where
  reads_length := h.reads_length
  armed_timer := by
    intro k' hk'
    exact h.armed_timer k' (List.mem_of_mem_filter hk')
  armed_idle := by
    intro hne
    refine h.armed_idle ?_
    rintro hnil
    exact hne (by simp [hnil])
  clear := h.clear

/-- What a command that is over leaves: the read ended, or it waits for the anchor. -/
theorem Ok.readVerdict (h : s.Ok) (ha : a ∈ s.reads) (memo : AnchorMemo) (answer : GitResult) (throws : Bool) :
    (readVerdict memo (s.resume a) answer throws).2.Ok := by
  unfold Fleet.readVerdict
  split
  · exact h.settle_resume ha
  · split
    · exact h.settle_resume ha
    · split
      · exact h.settle_resume ha
      · exact h.await ha _

theorem Ok.afterLsRemote (h : s.Ok) (ha : .lsRemote ∈ s.reads) (memo : AnchorMemo) (res : Option GitResult)
    (throws : Bool) : (afterLsRemote memo (s.resume .lsRemote) res throws).2.Ok := by
  cases res with
  | none => exact h.settle_resume ha
  | some res => exact h.readVerdict ha memo _ throws

/-! A state that was disposed of stays so, and a completion begins no read. -/

@[simp] theorem settle_stopped : (s.settle answer anchor).stopped = s.stopped := rfl

@[simp] theorem settle_begun : (s.settle answer anchor).begun = s.begun := rfl

@[simp] theorem resume_stopped : (s.resume a).stopped = s.stopped := rfl

@[simp] theorem resume_begun : (s.resume a).begun = s.begun := rfl

@[simp] theorem beginSharedPauseRefresh_stopped (now : ℤ) (throws : Bool) :
    (s.beginSharedPauseRefresh now throws).stopped = s.stopped := by
  cases throws <;> rfl

end SharedPauseRefresh

theorem readVerdict_stopped (memo : AnchorMemo) (s : SharedPauseRefresh) (answer : GitResult) (throws : Bool) :
    (readVerdict memo s answer throws).2.stopped = s.stopped ∧ (readVerdict memo s answer throws).2.begun = s.begun := by
  unfold readVerdict
  split
  · simp
  · split
    · simp
    · split <;> simp

theorem afterLsRemote_stopped (memo : AnchorMemo) (s : SharedPauseRefresh) (res : Option GitResult) (throws : Bool) :
    (afterLsRemote memo s res throws).2.stopped = s.stopped ∧ (afterLsRemote memo s res throws).2.begun = s.begun := by
  cases res with
  | none => simp [afterLsRemote]
  | some res => exact readVerdict_stopped memo s _ throws

theorem SharedPauseRefresh.Ok.refreshIfDue {s : SharedPauseRefresh} (h : s.Ok) (input : CheckInput) :
    (s.refreshIfDue input).Ok := by
  unfold SharedPauseRefresh.refreshIfDue
  split
  next hdue =>
    rw [Bool.and_eq_true, Bool.not_eq_true'] at hdue
    exact h.beginSharedPauseRefresh hdue.1 _ _
  next => exact h

@[simp] theorem SharedPauseRefresh.refreshIfDue_stopped (s : SharedPauseRefresh) (input : CheckInput) :
    (s.refreshIfDue input).stopped = s.stopped := by
  unfold SharedPauseRefresh.refreshIfDue
  split <;> simp

/-! ### The invariant -/

namespace World

variable {w w' v : World} {e : Event} {i j : ℕ} {s : SharedPauseRefresh} {input : CheckInput}

@[simp] theorem put_self : (w.put i s).states i = s := by simp [put]

theorem put_of_ne (h : j ≠ i) : (w.put i s).states j = w.states j := by simp [put, Function.update_of_ne h]

@[simp] theorem put_current : (w.put i s).current = w.current := rfl

@[simp] theorem put_count : (w.put i s).count = w.count := rfl

/-- Every state is well formed, and the one that answers checks was made and not disposed of. -/
structure Inv (w : World) : Prop where
  ok : ∀ i, (w.states i).Ok
  current_live : ∀ i, w.current = some i → i < w.count ∧ (w.states i).stopped = false
  unmade : ∀ i, w.count ≤ i → w.states i = .made

theorem inv_start : start.Inv where
  ok := fun _ => SharedPauseRefresh.ok_made
  current_live := by simp [start]
  unmade := fun _ _ => rfl

theorem Inv.lt_count_of_reads (h : w.Inv) {a : Awaiting} (ha : a ∈ (w.states i).reads) : i < w.count := by
  by_contra hge
  rw [h.unmade i (Nat.le_of_not_lt hge)] at ha
  cases ha

theorem Inv.lt_count_of_armed (h : w.Inv) {k : ℕ} (hk : k ∈ (w.states i).armed) : i < w.count := by
  by_contra hge
  rw [h.unmade i (Nat.le_of_not_lt hge)] at hk
  cases hk

theorem Inv.lt_count_of_stopped (h : w.Inv) (hi : (w.states i).stopped = true) : i < w.count := by
  by_contra hge
  rw [h.unmade i (Nat.le_of_not_lt hge)] at hi
  cases hi

/-- A change of one state that was made, which neither stops nor revives it. -/
theorem Inv.put (h : w.Inv) (hi : i < w.count) (hok : s.Ok) (hstopped : s.stopped = (w.states i).stopped)
    (memo : AnchorMemo) : { w.put i s with memo := memo }.Inv where
  ok := by
    intro j
    by_cases hj : j = i
    · subst hj
      simpa using hok
    · simpa [put_of_ne hj] using h.ok j
  current_live := by
    intro j hj
    obtain ⟨hlt, hlive⟩ := h.current_live j hj
    refine ⟨hlt, ?_⟩
    by_cases hji : j = i
    · subst hji
      simpa [hstopped] using hlive
    · simpa [put_of_ne hji] using hlive
  unmade := by
    intro j hj
    have hji : j ≠ i := by
      have hle : w.count ≤ j := hj
      omega
    simpa [put_of_ne hji] using h.unmade j hj

theorem obtainState_current : w.obtainState.1.current = some w.obtainState.2 := by
  unfold obtainState
  split
  next hcurrent => exact hcurrent
  next => rfl

theorem Inv.obtainState (h : w.Inv) : w.obtainState.1.Inv := by
  unfold World.obtainState
  split
  · exact h
  · refine ⟨?_, ?_, ?_⟩
    · intro j
      by_cases hj : j = w.count
      · subst hj
        simpa using SharedPauseRefresh.ok_made
      · simpa [put_of_ne hj] using h.ok j
    · rintro j hj
      obtain rfl := Option.some.inj hj
      exact ⟨Nat.lt_succ_self _, by simp [SharedPauseRefresh.made]⟩
    · intro j hj
      have hne : j ≠ w.count := Nat.ne_of_gt hj
      simpa [put_of_ne hne] using h.unmade j (Nat.le_of_succ_le hj)

theorem obtainState_of_lt (hj : j < w.count) : w.obtainState.1.states j = w.states j := by
  unfold obtainState
  split
  · rfl
  · exact put_of_ne (Nat.ne_of_lt hj)

theorem Inv.checkSharedPause (h : w.Inv) (input : CheckInput) : (w.checkSharedPause input).2.Inv := by
  unfold World.checkSharedPause
  split
  · exact h
  · obtain ⟨hlt, -⟩ := h.obtainState.current_live _ obtainState_current
    exact h.obtainState.put hlt ((h.obtainState.ok _).refreshIfDue input) (by simp) _

theorem Inv.dispose (h : w.Inv) (hcurrent : w.current = some i) :
    { w.put i (w.states i).dispose with current := none }.Inv where
  ok := by
    intro j
    by_cases hj : j = i
    · subst hj
      simpa using (h.ok j).dispose
    · simpa [put_of_ne hj] using h.ok j
  current_live := by simp
  unmade := by
    intro j hj
    have hji : j ≠ i := by
      have hlt := (h.current_live i hcurrent).1
      have hle : w.count ≤ j := hj
      omega
    simpa [put_of_ne hji] using h.unmade j hj

theorem step_lsRemoteDone {res : Option GitResult} {throws : Bool} : w.Step (.lsRemoteDone i res throws) w' ↔
    .lsRemote ∈ (w.states i).reads ∧
      w' = { w.put i (afterLsRemote w.memo ((w.states i).resume .lsRemote) res throws).2 with
        memo := (afterLsRemote w.memo ((w.states i).resume .lsRemote) res throws).1 } := by
  rw [eq_comm]
  exact Option.ite_none_right_eq_some.trans (and_congr_right' Option.some_inj)

theorem step_catFileDone {answer : GitResult} {sha : Text} {res : Option GitResult} :
    w.Step (.catFileDone i answer sha res) w' ↔
      .catFile answer sha ∈ (w.states i).reads ∧
        w' = { w.put i (((w.states i).resume (.catFile answer sha)).settle (some answer) (catAnchor res)) with
          memo := w.memo.set sha (catAnchor res) } := by
  rw [eq_comm]
  exact Option.ite_none_right_eq_some.trans (and_congr_right' Option.some_inj)

theorem step_fire {k : ℕ} {now : ℤ} {throws : Bool} : w.Step (.fire i k now throws) w' ↔
    k ∈ (w.states i).armed ∧
      w' = w.put i (({ w.states i with armed := (w.states i).armed.filter (· ≠ k) } : SharedPauseRefresh).beginSharedPauseRefresh
        now throws) := by
  rw [eq_comm]
  exact Option.ite_none_right_eq_some.trans (and_congr_right' Option.some_inj)

theorem dispose_cases (hs : w.Step .dispose w') :
    (w.current = none ∧ w' = w) ∨
      ∃ i, w.current = some i ∧ w' = { w.put i (w.states i).dispose with current := none } := by
  cases hcurrent : w.current with
  | none =>
      simp only [Step, next, hcurrent, Option.some.injEq] at hs
      exact .inl ⟨rfl, hs.symm⟩
  | some i =>
      simp only [Step, next, hcurrent, Option.some.injEq] at hs
      exact .inr ⟨i, rfl, hs.symm⟩

theorem Inv.step (h : w.Inv) (hs : w.Step e w') : w'.Inv := by
  cases e with
  | check input =>
      obtain rfl := Option.some.inj hs
      exact h.checkSharedPause input
  | lsRemoteDone i res throws =>
      obtain ⟨ha, rfl⟩ := step_lsRemoteDone.mp hs
      exact h.put (h.lt_count_of_reads ha) ((h.ok i).afterLsRemote ha _ res throws)
        (afterLsRemote_stopped _ _ res throws).1 _
  | catFileDone i answer sha res =>
      obtain ⟨ha, rfl⟩ := step_catFileDone.mp hs
      exact h.put (h.lt_count_of_reads ha) ((h.ok i).settle_resume ha) rfl _
  | fire i k now throws =>
      obtain ⟨hk, rfl⟩ := step_fire.mp hs
      have hidle := ((h.ok i).armed_idle (List.ne_nil_of_mem hk)).1
      exact h.put (h.lt_count_of_armed hk) (((h.ok i).disarm k).beginSharedPauseRefresh hidle now throws) (by simp) _
  | dispose =>
      obtain ⟨hcurrent, rfl⟩ | ⟨i, hcurrent, rfl⟩ := dispose_cases hs
      · exact h
      · exact h.dispose hcurrent

theorem inv_of_run {es : List Event} (h : Run Step start es w) : w.Inv :=
  h.invariant (fun _ _ _ hinv hs => hinv.step hs) inv_start

/-- A state that was disposed of is not the one that answers checks. -/
theorem Inv.current_ne (h : w.Inv) (hi : (w.states i).stopped = true) : w.current ≠ some i := by
  intro hcurrent
  have hlive := (h.current_live i hcurrent).2
  rw [hi] at hlive
  cases hlive

/-- A check leaves the states that were disposed of as they are. -/
theorem Inv.checkSharedPause_of_stopped (h : w.Inv) (hi : (w.states i).stopped = true) (input : CheckInput) :
    (w.checkSharedPause input).2.states i = w.states i := by
  unfold World.checkSharedPause
  split
  · rfl
  · have hstate : w.obtainState.1.states i = w.states i := obtainState_of_lt (h.lt_count_of_stopped hi)
    have hne : i ≠ w.obtainState.2 := by
      intro heq
      refine h.obtainState.current_ne (hstate ▸ hi) ?_
      rw [obtainState_current, heq]
    exact (put_of_ne hne).trans hstate

/-- A disposed state stays disposed of, and no step begins a read of it. -/
theorem Inv.step_stopped (h : w.Inv) (hs : w.Step e w') (hi : (w.states i).stopped = true) :
    (w'.states i).stopped = true ∧ (w'.states i).begun = (w.states i).begun := by
  cases e with
  | check input =>
      obtain rfl := Option.some.inj hs
      rw [h.checkSharedPause_of_stopped hi input]
      exact ⟨hi, rfl⟩
  | lsRemoteDone j res throws =>
      obtain ⟨ha, rfl⟩ := step_lsRemoteDone.mp hs
      obtain ⟨hstopped, hbegun⟩ := afterLsRemote_stopped w.memo ((w.states j).resume .lsRemote) res throws
      by_cases hij : i = j
      · subst hij
        simpa [hstopped, hbegun] using hi
      · simpa [put_of_ne hij] using hi
  | catFileDone j answer sha res =>
      obtain ⟨ha, rfl⟩ := step_catFileDone.mp hs
      by_cases hij : i = j
      · subst hij
        simpa using hi
      · simpa [put_of_ne hij] using hi
  | fire j k now throws =>
      obtain ⟨hk, rfl⟩ := step_fire.mp hs
      have hij : i ≠ j := by
        rintro rfl
        rw [(h.ok i).armed_of_stopped hi] at hk
        cases hk
      simpa [put_of_ne hij] using hi
  | dispose =>
      obtain ⟨hcurrent, rfl⟩ | ⟨j, hcurrent, rfl⟩ := dispose_cases hs
      · exact ⟨hi, rfl⟩
      · have hij : i ≠ j := by
          rintro rfl
          exact h.current_ne hi hcurrent
        simpa [put_of_ne hij] using hi

/-! ### Taking out what a disposed state completes -/

/-- Two refresh states that differ in the text of a hold at most. -/
structure Alike (s t : SharedPauseRefresh) : Prop where
  rest : t = { s with detail := t.detail }
  detail : t.detail.isSome = s.detail.isSome

theorem Alike.refl (s : SharedPauseRefresh) : Alike s s := ⟨rfl, rfl⟩

/-- The first memo has every anchor that the second has. -/
def Covers (memo memo' : AnchorMemo) : Prop := ∀ sha, (memo'.get? sha).isSome → (memo.get? sha).isSome

/-- Worlds that agree on every state but `i` up to the texts; the first has met every anchor that the second has. -/
structure Apart (i : ℕ) (w v : World) : Prop where
  current : v.current = w.current
  count : v.count = w.count
  states : ∀ j, j ≠ i → Alike (w.states j) (v.states j)
  memo : Covers w.memo v.memo

section Alike

variable {t : SharedPauseRefresh}

theorem Alike.settle (h : Alike s t) (answer : Option GitResult) (anchor anchor' : Option SharedPauseAnchorInfo) :
    Alike (s.settle answer anchor) (t.settle answer anchor') := by
  refine ⟨?_, ?_⟩
  · rw [h.rest]
    rfl
  · have hiff : sharedPauseReadDetail (lsRemoteVerdict answer) anchor' = none ↔
        sharedPauseReadDetail (lsRemoteVerdict answer) anchor = none := by
      rw [sharedPauseReadDetail_eq_none_iff, sharedPauseReadDetail_eq_none_iff]
    rw [Bool.eq_iff_iff, Option.isSome_iff_ne_none, Option.isSome_iff_ne_none]
    exact not_congr hiff

theorem Alike.resume (h : Alike s t) (a : Awaiting) : Alike (s.resume a) (t.resume a) := by
  refine ⟨?_, h.detail⟩
  rw [h.rest]
  rfl

theorem Alike.await (h : Alike s t) (a : Awaiting) :
    Alike { s with reads := a :: s.reads } { t with reads := a :: t.reads } := by
  refine ⟨?_, h.detail⟩
  rw [h.rest]

theorem Alike.dispose (h : Alike s t) : Alike s.dispose t.dispose := by
  refine ⟨?_, h.detail⟩
  rw [h.rest]
  rfl

theorem Alike.disarm (h : Alike s t) (k : ℕ) :
    Alike { s with armed := s.armed.filter (· ≠ k) } { t with armed := t.armed.filter (· ≠ k) } := by
  refine ⟨?_, h.detail⟩
  rw [h.rest]

theorem Alike.beginSharedPauseRefresh (h : Alike s t) (now : ℤ) (throws : Bool) :
    Alike (s.beginSharedPauseRefresh now throws) (t.beginSharedPauseRefresh now throws) := by
  have hbegun : Alike
      { s.clearTimeout with inFlight := true, nextReadAt := now + sharedPauseRefreshMs, begun := s.begun + 1 }
      { t.clearTimeout with inFlight := true, nextReadAt := now + sharedPauseRefreshMs, begun := t.begun + 1 } := by
    refine ⟨?_, h.detail⟩
    rw [h.rest]
    rfl
  cases throws with
  | true => exact hbegun.settle _ _ _
  | false => exact hbegun.await _

theorem Alike.refreshIfDue (h : Alike s t) (input : CheckInput) : Alike (s.refreshIfDue input) (t.refreshIfDue input) := by
  have hdue : (!t.inFlight && decide (t.nextReadAt ≤ input.now)) = (!s.inFlight && decide (s.nextReadAt ≤ input.now)) := by
    rw [h.rest]
  unfold SharedPauseRefresh.refreshIfDue
  rw [hdue]
  split
  · exact h.beginSharedPauseRefresh _ _
  · exact h

end Alike

section Covers

variable {memo memo' : AnchorMemo}

theorem Covers.set_left (h : Covers memo memo') (sha : Text) (anchor : Option SharedPauseAnchorInfo) :
    Covers (memo.set sha anchor) memo' := by
  intro sha' hsha'
  by_cases heq : sha' = sha
  · rw [heq, Record.get?_set_self]
    rfl
  · rw [Record.get?_set_of_ne _ _ heq]
    exact h sha' hsha'

theorem Covers.set_right (h : Covers memo memo') {sha : Text} (hsha : (memo.get? sha).isSome)
    (anchor : Option SharedPauseAnchorInfo) : Covers memo (memo'.set sha anchor) := by
  intro sha' hsha'
  by_cases heq : sha' = sha
  · rwa [heq]
  · rw [Record.get?_set_of_ne _ _ heq] at hsha'
    exact h sha' hsha'

theorem Covers.set_both (h : Covers memo memo') (sha : Text) (anchor anchor' : Option SharedPauseAnchorInfo) :
    Covers (memo.set sha anchor) (memo'.set sha anchor') :=
  (h.set_left sha anchor).set_right (by simp [Record.get?_set_self]) anchor'

/-- A completion forgets no anchor. -/
theorem Covers.afterLsRemote (h : Covers memo memo') (s : SharedPauseRefresh) (res : Option GitResult) (throws : Bool) :
    Covers (afterLsRemote memo s res throws).1 memo' := by
  cases res with
  | none => exact h
  | some res =>
      show Covers (readVerdict memo s _ throws).1 memo'
      unfold readVerdict
      split
      · exact h
      · split
        · exact h
        · split
          · exact h.set_left _ _
          · exact h

end Covers

/-- What was completed for `i` concerns no other state. -/
theorem Apart.put_left (h : Apart i w v) (s : SharedPauseRefresh) {memo : AnchorMemo} (hmemo : Covers memo v.memo) :
    Apart i { w.put i s with memo := memo } v where
  current := h.current
  count := h.count
  states := by
    intro j hj
    simpa [put_of_ne hj] using h.states j hj
  memo := hmemo

theorem Apart.put (h : Apart i w v) (j : ℕ) {t : SharedPauseRefresh} (hst : Alike s t) {memo memo' : AnchorMemo}
    (hmemo : Covers memo memo') :
    Apart i { w.put j s with memo := memo } { v.put j t with memo := memo' } where
  current := h.current
  count := h.count
  states := by
    intro k hk
    by_cases hkj : k = j
    · subst hkj
      simpa using hst
    · simpa [put_of_ne hkj] using h.states k hk
  memo := hmemo

theorem Apart.obtainState (h : Apart i w v) :
    Apart i w.obtainState.1 v.obtainState.1 ∧ v.obtainState.2 = w.obtainState.2 := by
  unfold World.obtainState
  rw [h.current, h.count]
  cases w.current with
  | some j => exact ⟨h, rfl⟩
  | none =>
      refine ⟨⟨rfl, rfl, ?_, h.memo⟩, rfl⟩
      intro j hj
      by_cases hcount : j = w.count
      · subst hcount
        simpa using Alike.refl .made
      · simpa [put_of_ne hcount] using h.states j hj

/-- A check answers in both worlds alike and leaves them alike. -/
theorem Apart.checkSharedPause (h : Apart i w v) (hw : w.Inv) (hi : (w.states i).stopped = true) (input : CheckInput) :
    Apart i (w.checkSharedPause input).2 (v.checkSharedPause input).2 ∧
      (v.checkSharedPause input).1.isSome = (w.checkSharedPause input).1.isSome := by
  obtain ⟨hobtain, hindex⟩ := h.obtainState
  have hne : w.obtainState.2 ≠ i := by
    intro heq
    have hstate := obtainState_of_lt (hw.lt_count_of_stopped hi)
    exact hw.obtainState.current_ne (hstate ▸ hi) (by rw [obtainState_current, heq])
  have halike := (hobtain.states _ hne).refreshIfDue input
  unfold World.checkSharedPause
  split
  · exact ⟨h, rfl⟩
  · refine ⟨?_, ?_⟩
    · simp only [hindex]
      exact hobtain.put w.obtainState.2 halike hobtain.memo
    · simp only [hindex, Option.isSome_or, halike.detail]

/-- Where the anchor is known in one world only, `cat-file` is refused in the other. -/
theorem Alike.readVerdict {t : SharedPauseRefresh} (h : Alike s t) {memo memo' : AnchorMemo} (hmemo : Covers memo memo')
    (answer : GitResult) (throws : Bool) :
    ∃ throws', (throws' = throws ∨ throws' = true) ∧
      Alike (readVerdict memo s answer throws).2 (readVerdict memo' t answer throws').2 ∧
      Covers (readVerdict memo s answer throws).1 (readVerdict memo' t answer throws').1 := by
  cases hheld : (parseSharedPauseLsRemote answer).held with
  | none =>
      refine ⟨throws, .inl rfl, ?_⟩
      rw [readVerdict_absent hheld, readVerdict_absent hheld]
      exact ⟨h.settle _ _ _, hmemo⟩
  | some sha =>
      cases hw : memo.get? sha with
      | some anchor =>
          cases hv : memo'.get? sha with
          | some anchor' =>
              refine ⟨throws, .inl rfl, ?_⟩
              rw [readVerdict_known hheld hw, readVerdict_known hheld hv]
              exact ⟨h.settle _ _ _, hmemo⟩
          | none =>
              refine ⟨true, .inr rfl, ?_⟩
              rw [readVerdict_known hheld hw, readVerdict_refused hheld hv]
              exact ⟨h.settle _ _ _, hmemo.set_right (by simp [hw]) _⟩
      | none =>
          have hv : memo'.get? sha = none := by
            by_contra hne
            have hsome := hmemo sha (Option.isSome_iff_ne_none.mpr hne)
            rw [hw] at hsome
            cases hsome
          refine ⟨throws, .inl rfl, ?_⟩
          cases throws with
          | false =>
              rw [readVerdict_await hheld hw, readVerdict_await hheld hv]
              exact ⟨h.await _, hmemo⟩
          | true =>
              rw [readVerdict_refused hheld hw, readVerdict_refused hheld hv]
              exact ⟨h.settle _ _ _, hmemo.set_both _ _ _⟩

theorem Alike.afterLsRemote {t : SharedPauseRefresh} (h : Alike s t) {memo memo' : AnchorMemo} (hmemo : Covers memo memo')
    (res : Option GitResult) (throws : Bool) :
    ∃ throws', (throws' = throws ∨ throws' = true) ∧
      Alike (afterLsRemote memo s res throws).2 (afterLsRemote memo' t res throws').2 ∧
      Covers (afterLsRemote memo s res throws).1 (afterLsRemote memo' t res throws').1 := by
  cases res with
  | none => exact ⟨throws, .inl rfl, h.settle _ _ _, hmemo⟩
  | some res => exact h.readVerdict hmemo _ throws

/-- The same event, but that `cat-file` may be refused: a refusal loses the attribution of a hold and nothing else. -/
inductive SameEvent : Event → Event → Prop
  | refl (e : Event) : SameEvent e e
  | refused (i : ℕ) (res : Option GitResult) (throws : Bool) :
      SameEvent (.lsRemoteDone i res throws) (.lsRemoteDone i res true)

/-- A completion for `i` is seen in no other state. -/
theorem Apart.step_completes (h : Apart i w v) (hs : w.Step e w') (he : e.completes i = true) : Apart i w' v := by
  cases e with
  | lsRemoteDone j res throws =>
      obtain rfl : j = i := by simpa [Event.completes] using he
      obtain ⟨-, rfl⟩ := step_lsRemoteDone.mp hs
      exact h.put_left _ (h.memo.afterLsRemote _ res throws)
  | catFileDone j answer sha res =>
      obtain rfl : j = i := by simpa [Event.completes] using he
      obtain ⟨-, rfl⟩ := step_catFileDone.mp hs
      exact h.put_left _ (h.memo.set_left sha _)
  | check input => cases he
  | fire j k now throws => cases he
  | dispose => cases he

/-- Any other event is possible in both worlds. -/
theorem Apart.step (h : Apart i w v) (hw : w.Inv) (hi : (w.states i).stopped = true) (hs : w.Step e w')
    (he : e.completes i = false) : ∃ e' v', SameEvent e e' ∧ v.Step e' v' ∧ Apart i w' v' := by
  cases e with
  | check input =>
      obtain rfl := Option.some.inj hs
      exact ⟨_, _, .refl _, rfl, (h.checkSharedPause hw hi input).1⟩
  | lsRemoteDone j res throws =>
      have hj : j ≠ i := by simpa [Event.completes] using he
      obtain ⟨ha, rfl⟩ := step_lsRemoteDone.mp hs
      have hreads : .lsRemote ∈ (v.states j).reads := by
        rw [(h.states j hj).rest]
        exact ha
      obtain ⟨throws', hthrows, halike, hmemo⟩ := ((h.states j hj).resume .lsRemote).afterLsRemote h.memo res throws
      refine ⟨.lsRemoteDone j res throws', _, ?_, step_lsRemoteDone.mpr ⟨hreads, rfl⟩, h.put j halike hmemo⟩
      obtain rfl | rfl := hthrows
      · exact .refl _
      · exact .refused j res throws
  | catFileDone j answer sha res =>
      have hj : j ≠ i := by simpa [Event.completes] using he
      obtain ⟨ha, rfl⟩ := step_catFileDone.mp hs
      have hreads : .catFile answer sha ∈ (v.states j).reads := by
        rw [(h.states j hj).rest]
        exact ha
      have halike := ((h.states j hj).resume (.catFile answer sha)).settle (some answer) (catAnchor res) (catAnchor res)
      exact ⟨_, _, .refl _, step_catFileDone.mpr ⟨hreads, rfl⟩, h.put j halike (h.memo.set_both _ _ _)⟩
  | fire j k now throws =>
      obtain ⟨hk, rfl⟩ := step_fire.mp hs
      have hj : j ≠ i := by
        rintro rfl
        rw [(hw.ok j).armed_of_stopped hi] at hk
        cases hk
      have harmed : k ∈ (v.states j).armed := by
        rw [(h.states j hj).rest]
        exact hk
      have halike := ((h.states j hj).disarm k).beginSharedPauseRefresh now throws
      exact ⟨_, _, .refl _, step_fire.mpr ⟨harmed, rfl⟩, h.put j halike h.memo⟩
  | dispose =>
      obtain ⟨hcurrent, rfl⟩ | ⟨j, hcurrent, rfl⟩ := dispose_cases hs
      · refine ⟨_, v, .refl _, ?_, h⟩
        simp only [Step, next, h.current, hcurrent]
      · have hj : j ≠ i := by
          rintro rfl
          exact hw.current_ne hi hcurrent
        have hput := h.put j (h.states j hj).dispose h.memo
        have hstep : v.Step .dispose { v.put j (v.states j).dispose with current := none } := by
          simp only [Step, next, h.current, hcurrent]
        exact ⟨_, _, .refl _, hstep, rfl, hput.count, hput.states, hput.memo⟩

/-- The run without what a disposed state completes. -/
theorem Run.without {fs : List Event} (hw : w.Inv) (hi : (w.states i).stopped = true) (hr : Run Step w fs w') :
    (w'.Inv ∧ (w'.states i).stopped = true ∧ (w'.states i).begun = (w.states i).begun) ∧
      ∃ gs v, Run Step w gs v ∧ List.Forall₂ SameEvent (fs.filter fun e => !e.completes i) gs ∧ Apart i w' v := by
  induction hr with
  | nil =>
      exact ⟨⟨hw, hi, rfl⟩, [], w, Run.nil, .nil, rfl, rfl, fun j _ => Alike.refl (w.states j), fun _ h => h⟩
  | @snoc fs u u' e hr hs ih =>
      obtain ⟨⟨hu, hstopped, hbegun⟩, gs, v, hrv, hsame, hapart⟩ := ih
      obtain ⟨hstopped', hbegun'⟩ := hu.step_stopped hs hstopped
      refine ⟨⟨hu.step hs, hstopped', hbegun'.trans hbegun⟩, ?_⟩
      rw [List.filter_append]
      cases he : e.completes i with
      | true =>
          refine ⟨gs, v, hrv, ?_, hapart.step_completes hs he⟩
          simpa [he] using hsame
      | false =>
          obtain ⟨e', v', hee', hsv, hapart'⟩ := hapart.step hu hstopped hs he
          refine ⟨gs ++ [e'], v', hrv.snoc hsv, ?_, hapart'⟩
          have hlast : List.Forall₂ SameEvent ([e].filter fun e => !e.completes i) [e'] := by
            simpa [he] using hee'
          exact List.rel_append hsame hlast

/-- A clear check stands on a read of the current state that found no ref. -/
theorem Inv.absent_of_clear (h : w.Inv) (hlocal : input.localHold = none) (hclear : (w.checkSharedPause input).1 = none) :
    ∃ i res, (w.checkSharedPause input).2.current = some i ∧
      ((w.checkSharedPause input).2.states i).completed.getLast? = some (some res) ∧ res.NamesNoRef := by
  have hfree : operatorHold input.localHold = false := by simp [operatorHold, hlocal]
  simp only [World.checkSharedPause, hfree, Bool.false_eq_true, if_false, Option.or_eq_none_iff] at hclear ⊢
  obtain ⟨res, hlast, habsent⟩ := ((h.obtainState.ok w.obtainState.2).refreshIfDue input).clear hclear.1
  exact ⟨w.obtainState.2, res, obtainState_current, by simpa using hlast, habsent⟩

end World

open World in
/-- In every run: a check with no local hold answers clear only when `git` succeeded, and printed no ref, in the read of
the current state that completed last; at most one read of a state is in flight; and a state that was disposed of never
answers a check again and begins no read again, while without its late completions every other state would have begun
as many reads and every check would answer clear, or hold, as it does. -/
theorem shared_pause_fails_closed {es : List Event} {w : World} (h : Run Step start es w) :
    (∀ input, input.localHold = none → (w.checkSharedPause input).1 = none →
      ∃ i res, (w.checkSharedPause input).2.current = some i ∧
        ((w.checkSharedPause input).2.states i).completed.getLast? = some (some res) ∧ res.status = 0 ∧
        ∀ c ∈ res.stdout, Text.jsSpace c = true) ∧
    (∀ i, (w.states i).reads.length ≤ 1) ∧
    ∀ i, (w.states i).stopped = true → ∀ fs w', Run Step w fs w' →
      w'.current ≠ some i ∧ (w'.states i).begun = (w.states i).begun ∧
      ∃ gs v, Run Step w gs v ∧ List.Forall₂ SameEvent (fs.filter fun e => !e.completes i) gs ∧
        (∀ j, j ≠ i → (v.states j).begun = (w'.states j).begun) ∧
        ∀ input, (v.checkSharedPause input).1.isSome = (w'.checkSharedPause input).1.isSome := by
  have hinv := inv_of_run h
  refine ⟨fun input hlocal hclear => hinv.absent_of_clear hlocal hclear, ?_, ?_⟩
  · intro i
    rw [(hinv.ok i).reads_length]
    split <;> omega
  · intro i hi fs w' hr
    obtain ⟨⟨hinv', hstopped, hbegun⟩, gs, v, hrv, hsame, hapart⟩ := Run.without hinv hi hr
    refine ⟨hinv'.current_ne hstopped, hbegun, gs, v, hrv, hsame, ?_, ?_⟩
    · intro j hj
      rw [(hapart.states j hj).rest]
    · intro input
      exact (hapart.checkSharedPause hinv' hstopped input).2

section Witness

def firstCheck : CheckInput := ⟨none, 0, 0, false⟩

/-- A state is disposed of while its read is in flight; a check makes the next one, and then the read finds no ref. -/
def lateCompletion : List Event :=
  [.check firstCheck, .dispose, .check firstCheck, .lsRemoteDone 0 (some ⟨0, []⟩) false]

def lateWorld : World := (lateCompletion.foldlM World.next World.start).getD World.start

theorem late_completion_run : Run World.Step World.start lateCompletion lateWorld := Run.of_foldlM rfl

/-- Then the read of the second state finds no ref either. -/
def clearCompletion : List Event := lateCompletion ++ [.lsRemoteDone 1 (some ⟨0, ['\n']⟩) false]

def clearWorld : World := (clearCompletion.foldlM World.next World.start).getD World.start

theorem clear_completion_run : Run World.Step World.start clearCompletion clearWorld := Run.of_foldlM rfl

/-- The late read of the first state found no ref, and the second one holds until its own read found none. -/
theorem late_completion_holds :
    (lateWorld.states 0).stopped = true ∧ (lateWorld.states 0).detail = none ∧ lateWorld.current = some 1 ∧
      (lateWorld.states 1).reads.length ≤ 1 ∧ (lateWorld.checkSharedPause firstCheck).1 ≠ none ∧
      (clearWorld.checkSharedPause firstCheck).1 = none ∧
      ∃ i res, (clearWorld.checkSharedPause firstCheck).2.current = some i ∧
        ((clearWorld.checkSharedPause firstCheck).2.states i).completed.getLast? = some (some res) ∧ res.status = 0 ∧
        ∀ c ∈ res.stdout, Text.jsSpace c = true := by
  have hall := shared_pause_fails_closed late_completion_run
  refine ⟨rfl, rfl, rfl, hall.2.1 1, ?_, rfl, (shared_pause_fails_closed clear_completion_run).1 firstCheck rfl rfl⟩
  intro hclear
  obtain ⟨i, res, hcurrent, hlast, -⟩ := hall.1 firstCheck rfl hclear
  obtain rfl : 1 = i := Option.some.inj hcurrent
  cases hlast

end Witness

end Remudero.Fleet
