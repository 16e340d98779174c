import Remudero.Automation.Trigger
import Remudero.Lib.Transition

/-! # The admission invariants of the trigger registry

Any sequence of calls on one registry, by a clock that does not go back and with a journal that may
throw at any call.  `Effect` says what one call can do: nothing, one flow, one trigger, one activation,
one new run that is refused or queued, or one event on a run that is not terminal; each of them with
one journal entry.  `Sound` is what every effect keeps, and `registry_invariants` reads off it that
runs are not duplicated, that the queue and in-flight limits hold, that a terminal run never changes,
and that the registry is what its journal says. -/

namespace Remudero.Automation

open Remudero.Lib

variable {R : Runtime} {s t : TriggerSystem} {call : Call}

/-! ### States of runs -/

theorem storedState_append (events : List AutomationTriggerRunEvent) (event : AutomationTriggerRunEvent) :
    storedState (events ++ [event]) = event.kind.implies.getD (storedState events) := by
  unfold storedState
  rw [List.reverse_append, List.reverse_singleton, List.singleton_append, List.findSome?_cons]
  cases event.kind.implies with
  | none => rfl
  | some state => rfl

@[simp] theorem bounded_kind (event : AutomationTriggerRunEvent) : event.bounded.kind = event.kind := rfl

/-- Ids of runs differ. -/
theorem runIdOf_injective : Function.Injective runIdOf := by
  have hvalue : ∀ n, Nat.ofDigitChars 10
      (List.replicate (6 - (Nat.toDigits 10 n).length) '0' ++ Nat.toDigits 10 n) 0 = n := by
    intro n
    rw [Nat.ofDigitChars_append, Nat.ofDigitChars_replicate_zero, Nat.mul_zero, Nat.ofDigitChars_ten_toDigits]
  intro m n h
  have htail : List.replicate (6 - (Nat.toDigits 10 m).length) '0' ++ Nat.toDigits 10 m
      = List.replicate (6 - (Nat.toDigits 10 n).length) '0' ++ Nat.toDigits 10 n := List.append_cancel_left h
  rw [← hvalue m, htail, hvalue n]

/-! ### What a call can do -/

/-- The runs of a trigger that are queued and not expired. -/
def queuedRuns (R : Runtime) (registry : AutomationTriggerRegistry) (triggerId : Text) (now : ℤ) : List RunSlot :=
  (runsOf registry triggerId).filter fun run => run.state = .queued && run.unexpired R now

/-- The runs in progress under a concurrency key. -/
def inFlightRuns (registry : AutomationTriggerRegistry) (key : Text) : List RunSlot :=
  registry.runSlots.filter fun run => run.record.concurrencyKey = key && run.state = .inProgress

/-- Two runs share an idempotency key or a delivery id. -/
def Shares (a b : AutomationTriggerRunRecord) : Prop :=
  a.idempotencyKey = b.idempotencyKey ∨ ∃ d, a.deliveryId = some d ∧ b.deliveryId = some d

def TriggerSystem.log (s : TriggerSystem) (entry : AutomationTriggerJournalEntry) : TriggerSystem :=
  { s with journal := s.journal ++ [entry] }

def TriggerSystem.withSequence (s : TriggerSystem) (n : ℕ) : TriggerSystem :=
  { s with registry := { s.registry with sequence := n } }

/-- What one call can do. -/
inductive Effect (R : Runtime) (call : Call) (s : TriggerSystem) : TriggerSystem → Prop
  | idle (n : ℕ) (hn : s.registry.sequence ≤ n) : Effect R call s (s.withSequence n)
  | flow (flow : AutomationFlow) :
      Effect R call s ((s.log (.flowRegistered call.iso flow)).setFlow flow)
  | trigger (d : AutomationTriggerDefinition) (hnew : s.registry.triggers.get? d.triggerId = none) :
      Effect R call s ((s.log (.triggerRegistered d.triggerId call.iso d)).setTrigger d.triggerId
        ⟨d, .active, "registered".toList, call.iso⟩)
  | activation (triggerId : Text) (slot : TriggerSlot) (state : AutomationTriggerActivationState) (reason : Text)
      (hslot : s.registry.triggers.get? triggerId = some slot) :
      Effect R call s ((s.log (.activation triggerId call.iso state reason)).setTrigger triggerId
        ⟨slot.definition, state, reason, call.iso⟩)
  | newRun (triggerId : Text) (slot : TriggerSlot) (record : AutomationTriggerRunRecord)
      (event : AutomationTriggerRunEvent) (at_ : Text)
      (hslot : s.registry.triggers.get? triggerId = some slot)
      (hid : record.runId = runIdOf (s.registry.sequence + 1))
      (htrigger : record.triggerId = slot.definition.triggerId)
      (hkey : record.concurrencyKey = slot.definition.concurrencyKey)
      (hkind : event.kind = .refused ∨ (event.kind = .queued ∧
        (∀ run ∈ runsOf s.registry triggerId, run.state ≠ .refused → ¬ Shares run.record record) ∧
        (queuedRuns R s.registry triggerId call.now).length < slot.definition.maxQueued)) :
      Effect R call s (((s.withSequence (s.registry.sequence + 1)).log
        (.runEvent record.triggerId record.runId at_ record event)).setRun record.runId ⟨record, [event]⟩)
  | event (runId : Text) (run : RunSlot) (event : AutomationTriggerRunEvent) (at_ : Text)
      (hrun : s.registry.runs.get? runId = some run) (hopen : run.state.terminal = false)
      (hkind : event.kind ≠ .queued ∧ event.kind ≠ .refused)
      (hstart : event.kind = .started → ∃ slot, s.registry.triggers.get? run.record.triggerId = some slot ∧
        (inFlightRuns s.registry run.record.concurrencyKey).length < slot.definition.maxInFlight) :
      Effect R call s ((s.log (.runEvent run.record.triggerId run.record.runId at_ run.record event)).setRun
        run.record.runId ⟨run.record, run.events ++ [event]⟩)

theorem Effect.same : Effect R call s s := Effect.idle s.registry.sequence le_rfl

/-- The journal refuses, or it has the entry. -/
theorem journalFirst_cases (s : TriggerSystem) (call : Call) (entry : AutomationTriggerJournalEntry) :
    (∃ e, journalFirst s call entry = .error e) ∨ journalFirst s call entry = .ok (s.log entry) := by
  unfold journalFirst
  cases call.journalError with
  | none => exact Or.inr rfl
  | some message => exact Or.inl ⟨_, rfl⟩

theorem appendEvent_cases (s : TriggerSystem) (call : Call) (run : RunSlot) (event : AutomationTriggerRunEvent) :
    (∃ e, appendEvent s call run event = .error e) ∨
      appendEvent s call run event = .ok
        ((s.log (.runEvent run.record.triggerId run.record.runId event.at_ run.record event.bounded)).setRun
          run.record.runId ⟨run.record, run.events ++ [event.bounded]⟩,
          ⟨run.record, run.events ++ [event.bounded]⟩) := by
  unfold appendEvent
  obtain ⟨e, he⟩ | hok := journalFirst_cases s call
    (.runEvent run.record.triggerId run.record.runId event.at_ run.record event.bounded)
  · left
    rw [he]
    exact ⟨e, rfl⟩
  · right
    rw [hok]
    rfl

/-- An event on a run that is not terminal. -/
theorem appendOr_effect {runId : Text} {run : RunSlot} {event : AutomationTriggerRunEvent}
    {done : RunSlot → AutomationTriggerRunResult} (hrun : s.registry.runs.get? runId = some run)
    (hopen : run.state.terminal = false) (hkind : event.kind ≠ .queued ∧ event.kind ≠ .refused)
    (hstart : event.kind = .started → ∃ slot, s.registry.triggers.get? run.record.triggerId = some slot ∧
        (inFlightRuns s.registry run.record.concurrencyKey).length < slot.definition.maxInFlight) :
    Effect R call s (appendOr s call run event done).1 := by
  unfold appendOr
  obtain ⟨e, he⟩ | hok := appendEvent_cases s call run event
  · rw [he]
    exact Effect.same
  · rw [hok]
    exact Effect.event runId run event.bounded event.at_ hrun hopen hkind hstart

/-- An event that neither makes a run nor starts one. -/
theorem appendOr_effect_of_ne {runId : Text} {run : RunSlot} {event : AutomationTriggerRunEvent}
    {done : RunSlot → AutomationTriggerRunResult} (hrun : s.registry.runs.get? runId = some run)
    (hopen : run.state.terminal = false)
    (hkind : event.kind ≠ .queued ∧ event.kind ≠ .refused ∧ event.kind ≠ .started) :
    Effect R call s (appendOr s call run event done).1 :=
  appendOr_effect hrun hopen ⟨hkind.1, hkind.2.1⟩ fun h => absurd h hkind.2.2

theorem registerAutomationFlow_effect (flowId : Text) (action : Json) (grants : List Text) :
    Effect R call s (registerAutomationFlow R s call flowId action grants).1 := by
  unfold registerAutomationFlow
  split
  · exact Effect.same
  · split
    · exact Effect.same
    next a _ =>
      split
      · exact Effect.same
      · split
        · exact Effect.same
        · obtain ⟨e, he⟩ | hok := journalFirst_cases s call (.flowRegistered call.iso ⟨flowId, a, grants⟩)
          · rw [he]
            exact Effect.same
          · rw [hok]
            exact Effect.flow ⟨flowId, a, grants⟩

theorem registerAutomationTrigger_effect (input : Json) :
    Effect R call s (registerAutomationTrigger R s call input).1 := by
  unfold registerAutomationTrigger
  split
  · exact Effect.same
  next d _ =>
    split
    · exact Effect.same
    · split
      · split
        · exact Effect.same
        · exact Effect.same
      next hnew =>
        obtain ⟨e, he⟩ | hok := journalFirst_cases s call (.triggerRegistered d.triggerId call.iso d)
        · rw [he]
          exact Effect.same
        · rw [hok]
          exact Effect.trigger d hnew

theorem setAutomationTriggerActivation_effect (triggerId state reason : Text) :
    Effect R call s (setAutomationTriggerActivation s call triggerId state reason).1 := by
  unfold setAutomationTriggerActivation
  split
  · exact Effect.same
  next slot hslot =>
    split
    · exact Effect.same
    next st _ =>
      dsimp only
      generalize (if (Text.takeUnits AUTOMATION_TRIGGER_MAX_TEXT_CHARS reason).isEmpty then st.text
        else Text.takeUnits AUTOMATION_TRIGGER_MAX_TEXT_CHARS reason) = bounded
      obtain ⟨e, he⟩ | hok := journalFirst_cases s call (.activation triggerId call.iso st bounded)
      · rw [he]
        exact Effect.same
      · rw [hok]
        exact Effect.activation triggerId slot st bounded hslot

/-- A request is refused before it has a run, refused with a run, or queued. -/
theorem admissionRefusal_eq_none {slot : TriggerSlot} {request : AutomationTriggerRequest} {prior : List RunSlot}
    {expiresMs : ℤ} (h : admissionRefusal R call slot request prior expiresMs = none) :
    (prior.filter fun run => run.state = .queued && run.unexpired R call.now).length
      < slot.definition.maxQueued := by
  unfold admissionRefusal at h
  dsimp only at h
  split at h
  · cases h
  · split at h
    · cases h
    · split at h
      · cases h
      · split at h
        · cases h
        next hroom => exact Nat.lt_of_not_le hroom

/-- No run of the trigger answers the request, so none shares a key with its run. -/
theorem not_shares_of_find?_eq_none {request : AutomationTriggerRequest} {prior : List RunSlot}
    (h : (prior.find? fun run => run.answers request) = none) {record : AutomationTriggerRunRecord}
    (hkey : record.idempotencyKey = request.idempotencyKey) (hdelivery : record.deliveryId = request.deliveryId) :
    ∀ run ∈ prior, run.state ≠ .refused → ¬ Shares run.record record := by
  intro run hrun hstate hshares
  apply List.find?_eq_none.mp h run hrun
  rw [RunSlot.answers, Bool.and_eq_true, decide_eq_true_eq, Bool.or_eq_true, Bool.and_eq_true,
    decide_eq_true_eq, decide_eq_true_eq, ← hkey, ← hdelivery]
  refine ⟨hstate, ?_⟩
  obtain hidem | ⟨d, hd, hd'⟩ := hshares
  · exact Or.inl hidem
  · right
    rw [hd, hd']
    exact ⟨rfl, rfl⟩

theorem submitAutomationTrigger_effect (input : Json) (replayOf : Option Text) :
    Effect R call s (submitAutomationTrigger R s call input replayOf).1 := by
  unfold submitAutomationTrigger
  split
  · exact Effect.same
  next request _ =>
    split
    · exact Effect.same
    next slot hslot =>
      split
      · exact Effect.same
      next flow _ =>
        dsimp only
        split
        · exact Effect.same
        next hfirst =>
          split
          · exact Effect.same
          · have hskip : Effect R call s (s.withSequence (s.registry.sequence + 1)) :=
              Effect.idle (s.registry.sequence + 1) (Nat.le_succ _)
            split
            · exact hskip
            next expiresMs _ =>
              split
              next code reason _ =>
                obtain ⟨e, he⟩ | hok := appendEvent_cases (s.withSequence (s.registry.sequence + 1)) call
                  ⟨runRecord R (runIdOf (s.registry.sequence + 1)) slot.definition flow request expiresMs replayOf, []⟩
                  ⟨.refused, call.iso, some code, reason, none, none⟩
                · simp only [TriggerSystem.withSequence] at he
                  rw [he]
                  exact hskip
                · simp only [TriggerSystem.withSequence] at hok
                  rw [hok]
                  exact Effect.newRun request.triggerId slot _ _ _ hslot rfl rfl rfl (Or.inl rfl)
              next hroom =>
                obtain ⟨e, he⟩ | hok := appendEvent_cases (s.withSequence (s.registry.sequence + 1)) call
                  ⟨runRecord R (runIdOf (s.registry.sequence + 1)) slot.definition flow request expiresMs replayOf, []⟩
                  (queuedEvent call request replayOf)
                · simp only [TriggerSystem.withSequence] at he
                  rw [he]
                  exact hskip
                · simp only [TriggerSystem.withSequence] at hok
                  rw [hok]
                  apply Effect.newRun request.triggerId slot _ _ _ hslot rfl rfl rfl
                  refine Or.inr ⟨rfl, ?_, admissionRefusal_eq_none hroom⟩
                  exact not_shares_of_find?_eq_none hfirst rfl rfl

theorem startRefusal_eq_none {slot : TriggerSlot} {run : RunSlot} (h : startRefusal s slot run = none) :
    (inFlightRuns s.registry run.record.concurrencyKey).length < slot.definition.maxInFlight := by
  unfold startRefusal at h
  dsimp only at h
  split at h
  · cases h
  · split at h
    · cases h
    next hroom => exact Nat.lt_of_not_le hroom

theorem startAutomationTriggerRun_effect (runId : Text) (profile : Except Text AutomationTriggerProfileResolution) :
    Effect R call s (startAutomationTriggerRun R s call runId profile).1 := by
  unfold startAutomationTriggerRun
  split
  · exact Effect.same
  next run hrun =>
    split
    · exact Effect.same
    next hqueued =>
      have hopen : run.state.terminal = false := by rw [not_not.mp hqueued]; rfl
      -- a start that is refused leaves a run open
      have hrefused : ∀ (code reason : Text) (done : RunSlot → AutomationTriggerRunResult), Effect R call s
          (appendOr s call run ⟨.startRefused, call.iso, some code, reason, none, none⟩ done).1 := by
        intro code reason done
        exact appendOr_effect_of_ne hrun hopen (by simp)
      split
      · exact Effect.same
      next slot hslot =>
        dsimp only
        split
        · exact appendOr_effect_of_ne hrun hopen (by simp)
        · split
          · exact hrefused _ _ _
          next hroom =>
            split
            · exact hrefused _ _ _
            · exact hrefused _ _ _
            · refine appendOr_effect hrun hopen (by simp) ?_
              intro _
              exact ⟨slot, hslot, startRefusal_eq_none hroom⟩

theorem heartbeatAutomationTriggerRun_effect (runId reason : Text) :
    Effect R call s (heartbeatAutomationTriggerRun s call runId reason).1 := by
  unfold heartbeatAutomationTriggerRun
  split
  · exact Effect.same
  next run hrun =>
    split
    · exact Effect.same
    next hstate =>
      have hopen : run.state.terminal = false := by rw [not_not.mp hstate]; rfl
      exact appendOr_effect_of_ne hrun hopen (by simp)

theorem completionKind_eq_some {receipt : AutomationActionReceipt} {kind : AutomationTriggerRunEventKind}
    (h : completionKind receipt = some kind) : kind = .success ∨ kind = .failed := by
  unfold completionKind at h
  split at h
  · cases h
  · split at h
    · exact Or.inl (Option.some.inj h).symm
    · exact Or.inr (Option.some.inj h).symm
    · cases h

theorem completeAutomationTriggerRun_effect (runId : Text) (receipt : Json) :
    Effect R call s (completeAutomationTriggerRun R s call runId receipt).1 := by
  unfold completeAutomationTriggerRun
  split
  · exact Effect.same
  next run hrun =>
    split
    · exact Effect.same
    next hterminal =>
      have hopen : run.state.terminal = false := eq_false_of_ne_true hterminal
      split
      · exact Effect.same
      · split
        · exact Effect.same
        next r kind hkind =>
          split
          · exact Effect.same
          · obtain ⟨r', -, hr'⟩ := Option.bind_eq_some_iff.mp hkind
            obtain ⟨kind', hkind', heq⟩ := Option.map_eq_some_iff.mp hr'
            have hsame : kind' = kind := congrArg Prod.snd heq
            have hcases := completionKind_eq_some (hsame ▸ hkind')
            apply appendOr_effect hrun hopen
            · obtain rfl | rfl := hcases
              · simp
              · simp
            · obtain rfl | rfl := hcases
              · rintro ⟨⟩
              · rintro ⟨⟩

theorem cancelAutomationTriggerRun_effect (runId reason : Text) :
    Effect R call s (cancelAutomationTriggerRun s call runId reason).1 := by
  unfold cancelAutomationTriggerRun
  split
  · exact Effect.same
  next run hrun =>
    split
    · exact Effect.same
    next hterminal =>
      exact appendOr_effect_of_ne hrun (eq_false_of_ne_true hterminal) (by simp)

theorem replayAutomationTriggerRun_effect (runId requestedBy key : Text) :
    Effect R call s (replayAutomationTriggerRun R s call runId requestedBy key).1 := by
  unfold replayAutomationTriggerRun
  split
  · exact Effect.same
  · split
    · exact Effect.same
    · exact submitAutomationTrigger_effect _ _

/-- Every call has one of the effects. -/
theorem after_effect (op : TriggerOp) : Effect R call s (s.after R call op) := by
  cases op with
  | registerFlow flowId action grants => exact registerAutomationFlow_effect flowId action grants
  | registerTrigger input => exact registerAutomationTrigger_effect input
  | setActivation triggerId state reason => exact setAutomationTriggerActivation_effect triggerId state reason
  | submit input => exact submitAutomationTrigger_effect input none
  | start runId profile => exact startAutomationTriggerRun_effect runId profile
  | heartbeat runId reason => exact heartbeatAutomationTriggerRun_effect runId reason
  | complete runId receipt => exact completeAutomationTriggerRun_effect runId receipt
  | cancel runId reason => exact cancelAutomationTriggerRun_effect runId reason
  | replay runId requestedBy key => exact replayAutomationTriggerRun_effect runId requestedBy key

/-! ### The invariant -/

structure Sound (R : Runtime) (s : TriggerSystem) : Prop where
  runKey : ∀ id run, s.registry.runs.get? id = some run → run.record.runId = id
  /-- ids of runs come from the sequence -/
  numbered : ∀ id run, s.registry.runs.get? id = some run → ∃ n, n ≤ s.registry.sequence ∧ id = runIdOf n
  triggerKey : ∀ id slot, s.registry.triggers.get? id = some slot → slot.definition.triggerId = id
  ofTrigger : ∀ id run, s.registry.runs.get? id = some run → ∃ slot,
    s.registry.triggers.get? run.record.triggerId = some slot ∧
      run.record.concurrencyKey = slot.definition.concurrencyKey
  distinct : ∀ id id' run run', s.registry.runs.get? id = some run → s.registry.runs.get? id' = some run' →
    id ≠ id' → run.record.triggerId = run'.record.triggerId → run.state ≠ .refused → run'.state ≠ .refused →
    ¬ Shares run.record run'.record
  queue : ∀ id slot now, s.registry.triggers.get? id = some slot → s.clock ≤ now →
    (queuedRuns R s.registry id now).length ≤ slot.definition.maxQueued
  inFlight : ∀ key, (inFlightRuns s.registry key).length = 0 ∨ ∃ id slot,
    s.registry.triggers.get? id = some slot ∧ slot.definition.concurrencyKey = key ∧
      (inFlightRuns s.registry key).length ≤ slot.definition.maxInFlight
  journal : replayJournal s.journal = s.registry.memory

theorem Shares.symm {a b : AutomationTriggerRunRecord} (h : Shares a b) : Shares b a := by
  obtain h | ⟨d, h1, h2⟩ := h
  · exact Or.inl h.symm
  · exact Or.inr ⟨d, h2, h1⟩

/-- The test that `queuedRuns` counts by. -/
def RunSlot.waits (R : Runtime) (triggerId : Text) (now : ℤ) (run : RunSlot) : Bool :=
  (run.state = .queued && run.unexpired R now) && run.record.triggerId = triggerId

/-- The test that `inFlightRuns` counts by. -/
def RunSlot.flies (key : Text) (run : RunSlot) : Bool :=
  run.record.concurrencyKey = key && run.state = .inProgress

theorem length_queuedRuns (registry : AutomationTriggerRegistry) (triggerId : Text) (now : ℤ) :
    (queuedRuns R registry triggerId now).length
      = (registry.runs.values.filter (RunSlot.waits R triggerId now)).length := by
  rw [queuedRuns, runsOf, List.filter_filter]
  rfl

/-- What expires does not come back. -/
theorem length_queuedRuns_mono {now now' : ℤ} (h : now ≤ now') (registry : AutomationTriggerRegistry)
    (triggerId : Text) :
    (queuedRuns R registry triggerId now').length ≤ (queuedRuns R registry triggerId now).length := by
  rw [queuedRuns, queuedRuns, ← List.countP_eq_length_filter, ← List.countP_eq_length_filter]
  apply List.countP_mono_left
  intro run _ hrun
  rw [Bool.and_eq_true, RunSlot.unexpired, Option.any_eq_true] at hrun ⊢
  obtain ⟨hq, t, ht, hlt⟩ := hrun
  rw [decide_eq_true_eq] at hlt
  exact ⟨hq, t, ht, decide_eq_true (lt_of_le_of_lt h hlt)⟩

theorem Sound.empty (R : Runtime) (clock : ℤ) : Sound R (TriggerSystem.empty clock) := by
  have hruns : ∀ id run, (TriggerSystem.empty clock).registry.runs.get? id ≠ some run := by
    intro id run h
    rw [TriggerSystem.empty, Record.get?_empty] at h
    cases h
  have htriggers : ∀ id slot, (TriggerSystem.empty clock).registry.triggers.get? id ≠ some slot := by
    intro id slot h
    rw [TriggerSystem.empty, Record.get?_empty] at h
    cases h
  refine ⟨?_, ?_, ?_, ?_, ?_, ?_, fun _ => Or.inl rfl, rfl⟩
  · exact fun id run h => absurd h (hruns id run)
  · exact fun id run h => absurd h (hruns id run)
  · exact fun id slot h => absurd h (htriggers id slot)
  · exact fun id run h => absurd h (hruns id run)
  · exact fun id _ run _ h => absurd h (hruns id run)
  · exact fun id slot _ h => absurd h (htriggers id slot)

theorem replayJournal_log (s : TriggerSystem) (entry : AutomationTriggerJournalEntry) :
    replayJournal (s.log entry).journal = (replayJournal s.journal).read entry := by
  rw [replayJournal, replayJournal, TriggerSystem.log, List.foldl_append]
  rfl

/-- The id of the next run is new. -/
theorem Sound.get?_runIdOf_succ (hs : Sound R s) :
    s.registry.runs.get? (runIdOf (s.registry.sequence + 1)) = none := by
  cases h : s.registry.runs.get? (runIdOf (s.registry.sequence + 1)) with
  | none => rfl
  | some run =>
      obtain ⟨n, hn, heq⟩ := hs.numbered _ run h
      have := runIdOf_injective heq
      omega

theorem Sound.idle (hs : Sound R s) {n : ℕ} (hn : s.registry.sequence ≤ n) {clock : ℤ} (hclock : s.clock ≤ clock) :
    Sound R { s.withSequence n with clock } where
  runKey := hs.runKey
  numbered := by
    intro id run h
    obtain ⟨m, hm, heq⟩ := hs.numbered id run h
    exact ⟨m, hm.trans hn, heq⟩
  triggerKey := hs.triggerKey
  ofTrigger := hs.ofTrigger
  distinct := hs.distinct
  queue := fun id slot now h hnow => hs.queue id slot now h (hclock.trans hnow)
  inFlight := hs.inFlight
  journal := hs.journal

theorem Sound.flow (hs : Sound R s) (flow : AutomationFlow) (at_ : Text) {clock : ℤ} (hclock : s.clock ≤ clock) :
    Sound R { (s.log (.flowRegistered at_ flow)).setFlow flow with clock } where
  runKey := hs.runKey
  numbered := hs.numbered
  triggerKey := hs.triggerKey
  ofTrigger := hs.ofTrigger
  distinct := hs.distinct
  queue := fun id slot now h hnow => hs.queue id slot now h (hclock.trans hnow)
  inFlight := hs.inFlight
  journal := by
    show replayJournal (s.log (.flowRegistered at_ flow)).journal = _
    rw [replayJournal_log, hs.journal]
    rfl

/-- A trigger is set that is new, or that keeps its definition. -/
theorem Sound.setTrigger (hs : Sound R s) {id : Text} (slot : TriggerSlot) (entry : AutomationTriggerJournalEntry)
    (hkey : slot.definition.triggerId = id)
    (hold : ∀ old, s.registry.triggers.get? id = some old → old.definition = slot.definition)
    (hentry : s.registry.memory.read entry
      = { s.registry.memory with triggers := s.registry.triggers.set id slot })
    {clock : ℤ} (hclock : s.clock ≤ clock) :
    Sound R { (s.log entry).setTrigger id slot with clock } := by
  -- every slot of before is there with its definition
  have hkeep : ∀ id' old, s.registry.triggers.get? id' = some old →
      ∃ new, (s.registry.triggers.set id slot).get? id' = some new ∧ new.definition = old.definition := by
    intro id' old h
    by_cases hid : id' = id
    · subst hid
      exact ⟨slot, Record.get?_set_self _ _ _, (hold old h).symm⟩
    · exact ⟨old, by rw [Record.get?_set_of_ne _ _ hid, h], rfl⟩
  refine ⟨hs.runKey, hs.numbered, ?_, ?_, hs.distinct, ?_, ?_, ?_⟩
  · intro id' slot' h
    by_cases hid : id' = id
    · subst hid
      have hget : some slot = some slot' := (Record.get?_set_self _ _ _).symm.trans h
      rw [← Option.some.inj hget]
      exact hkey
    · exact hs.triggerKey id' slot' ((Record.get?_set_of_ne _ _ hid).symm.trans h)
  · intro runId run h
    obtain ⟨old, hslot, hck⟩ := hs.ofTrigger runId run h
    obtain ⟨new, hnew, hdef⟩ := hkeep _ old hslot
    exact ⟨new, hnew, by rw [hck, hdef]⟩
  · intro id' slot' now h hnow
    cases hget : s.registry.triggers.get? id' with
    | some old =>
        obtain ⟨new, hnew, hdef⟩ := hkeep id' old hget
        have hsame : new = slot' := Option.some.inj (hnew.symm.trans h)
        rw [← hsame, hdef]
        exact hs.queue id' old now hget (hclock.trans hnow)
    | none =>
        -- a trigger that was not there has no runs
        have hempty : queuedRuns R s.registry id' now = [] := by
          apply List.filter_eq_nil_iff.mpr
          intro run hrun
          obtain ⟨hmem, htrigger⟩ := List.mem_filter.mp hrun
          obtain ⟨runId, hrun⟩ := Record.mem_values_iff.mp hmem
          obtain ⟨old, hold', -⟩ := hs.ofTrigger runId run hrun
          rw [of_decide_eq_true htrigger, hget] at hold'
          cases hold'
        show (queuedRuns R s.registry id' now).length ≤ _
        rw [hempty]
        exact Nat.zero_le _
  · intro key
    obtain hzero | ⟨id', old, hget, hck, hle⟩ := hs.inFlight key
    · exact Or.inl hzero
    · obtain ⟨new, hnew, hdef⟩ := hkeep id' old hget
      exact Or.inr ⟨id', new, hnew, by rw [hdef, hck], by rw [hdef]; exact hle⟩
  · show replayJournal (s.log entry).journal = _
    rw [replayJournal_log, hs.journal, hentry]
    rfl

theorem state_single (record : AutomationTriggerRunRecord) (event : AutomationTriggerRunEvent) :
    RunSlot.state ⟨record, [event]⟩ = event.kind.implies.getD .unknown :=
  storedState_append [] event

theorem state_append (run : RunSlot) (event : AutomationTriggerRunEvent) :
    RunSlot.state ⟨run.record, run.events ++ [event]⟩ = event.kind.implies.getD run.state :=
  storedState_append run.events event

/-- A new run, refused or queued, is kept apart from the others. -/
theorem Sound.newRun (hs : Sound R s) {triggerId : Text} {slot : TriggerSlot} {record : AutomationTriggerRunRecord}
    {event : AutomationTriggerRunEvent} (at_ : Text)
    (hslot : s.registry.triggers.get? triggerId = some slot)
    (hid : record.runId = runIdOf (s.registry.sequence + 1))
    (htrigger : record.triggerId = slot.definition.triggerId)
    (hkey : record.concurrencyKey = slot.definition.concurrencyKey) {clock : ℤ} (hclock : s.clock ≤ clock)
    (hkind : event.kind = .refused ∨ (event.kind = .queued ∧
      (∀ run ∈ runsOf s.registry triggerId, run.state ≠ .refused → ¬ Shares run.record record) ∧
      (queuedRuns R s.registry triggerId clock).length < slot.definition.maxQueued)) :
    Sound R { ((s.withSequence (s.registry.sequence + 1)).log
      (.runEvent record.triggerId record.runId at_ record event)).setRun record.runId ⟨record, [event]⟩
        with clock } := by
  have hfresh : s.registry.runs.get? record.runId = none := by
    rw [hid]
    exact hs.get?_runIdOf_succ
  have htrigger' : record.triggerId = triggerId := htrigger.trans (hs.triggerKey triggerId slot hslot)
  have hget : ∀ id run, (s.registry.runs.set record.runId ⟨record, [event]⟩).get? id = some run →
      (id = record.runId ∧ run = ⟨record, [event]⟩) ∨ s.registry.runs.get? id = some run := by
    intro id run h
    by_cases hne : id = record.runId
    · left
      rw [hne, Record.get?_set_self] at h
      exact ⟨hne, (Option.some.inj h).symm⟩
    · right
      rwa [Record.get?_set_of_ne _ _ hne] at h
  -- the new run against one that was there
  have hnew : ∀ id run, s.registry.runs.get? id = some run → run.record.triggerId = record.triggerId →
      run.state ≠ .refused → RunSlot.state ⟨record, [event]⟩ ≠ .refused → ¬ Shares run.record record := by
    intro id run h hsame hrun hstate
    obtain hrefused | ⟨-, hno, -⟩ := hkind
    · rw [state_single, hrefused] at hstate
      exact absurd rfl hstate
    · apply hno run _ hrun
      apply List.mem_filter.mpr
      exact ⟨Record.mem_values_iff.mpr ⟨id, h⟩, decide_eq_true (hsame.trans htrigger')⟩
  generalize ht : { ((s.withSequence (s.registry.sequence + 1)).log
      (.runEvent record.triggerId record.runId at_ record event)).setRun record.runId ⟨record, [event]⟩
        with clock } = t
  have hruns : t.registry.runs = s.registry.runs.set record.runId ⟨record, [event]⟩ := by rw [← ht]; rfl
  have htriggers : t.registry.triggers = s.registry.triggers := by rw [← ht]; rfl
  have hnow : t.clock = clock := by rw [← ht]
  have hcounts : ∀ p : RunSlot → Bool, (t.registry.runs.values.filter p).length
      = (s.registry.runs.values.filter p).length + if p ⟨record, [event]⟩ then 1 else 0 := by
    intro p
    rw [hruns]
    exact Record.length_filter_set_fresh p _ hfresh
  refine ⟨?_, ?_, ?_, ?_, ?_, ?_, ?_, ?_⟩
  · intro id run h
    obtain ⟨rfl, rfl⟩ | h := hget id run (hruns ▸ h)
    · rfl
    · exact hs.runKey id run h
  · intro id run h
    have hseq : t.registry.sequence = s.registry.sequence + 1 := by rw [← ht]; rfl
    rw [hseq]
    obtain ⟨rfl, -⟩ | h := hget id run (hruns ▸ h)
    · exact ⟨s.registry.sequence + 1, le_rfl, hid⟩
    · obtain ⟨n, hn, heq⟩ := hs.numbered id run h
      exact ⟨n, Nat.le_succ_of_le hn, heq⟩
  · rw [htriggers]
    exact hs.triggerKey
  · intro id run h
    rw [htriggers]
    obtain ⟨-, rfl⟩ | h := hget id run (hruns ▸ h)
    · refine ⟨slot, ?_, hkey⟩
      rw [htrigger']
      exact hslot
    · exact hs.ofTrigger id run h
  · intro id id' run run' h h' hne hsame hrun hrun'
    obtain ⟨rfl, rfl⟩ | h := hget id run (hruns ▸ h)
    · obtain ⟨rfl, -⟩ | h' := hget id' run' (hruns ▸ h')
      · exact absurd rfl hne
      · intro hshares
        exact hnew id' run' h' hsame.symm hrun' hrun hshares.symm
    · obtain ⟨rfl, rfl⟩ | h' := hget id' run' (hruns ▸ h')
      · exact hnew id run h hsame hrun hrun'
      · exact hs.distinct id id' run run' h h' hne hsame hrun hrun'
  · intro id slot' now hslot' hle
    rw [htriggers] at hslot'
    rw [hnow] at hle
    rw [length_queuedRuns, hcounts, ← length_queuedRuns]
    have hbefore := hs.queue id slot' now hslot' (hclock.trans hle)
    split
    next hwaits =>
      -- only a queued run of this trigger waits
      rw [RunSlot.waits, Bool.and_eq_true, Bool.and_eq_true, decide_eq_true_eq, decide_eq_true_eq] at hwaits
      obtain ⟨⟨hstate, -⟩, htid⟩ := hwaits
      have hsame : id = triggerId := htid.symm.trans htrigger'
      subst hsame
      have hslots : slot' = slot := Option.some.inj (hslot'.symm.trans hslot)
      obtain hrefused | ⟨-, -, hroom⟩ := hkind
      · rw [state_single, hrefused] at hstate
        cases hstate
      · have hmono := length_queuedRuns_mono (R := R) hle s.registry id
        rw [hslots]
        omega
    next => exact hbefore
  · intro key
    have hcount : (inFlightRuns t.registry key).length = (inFlightRuns s.registry key).length := by
      rw [inFlightRuns, AutomationTriggerRegistry.runSlots, hcounts, if_neg]
      · rfl
      · rw [Bool.and_eq_true, decide_eq_true_eq, decide_eq_true_eq, state_single]
        rintro ⟨-, hstate⟩
        obtain h | ⟨h, -⟩ := hkind <;> rw [h] at hstate <;> cases hstate
    rw [hcount, htriggers]
    exact hs.inFlight key
  · have hentry : replayJournal t.journal
        = (replayJournal s.journal).read (.runEvent record.triggerId record.runId at_ record event) := by
      rw [← ht]
      exact replayJournal_log (s.withSequence (s.registry.sequence + 1)) _
    rw [hentry, hs.journal, TriggerMemory.read]
    simp only [AutomationTriggerRegistry.memory, hfresh]
    rw [← ht]
    rfl

/-- An event on an open run, which starts it only when its key has room. -/
theorem Sound.event (hs : Sound R s) {runId : Text} {run : RunSlot} {event : AutomationTriggerRunEvent} (at_ : Text)
    (hrun : s.registry.runs.get? runId = some run) (hopen : run.state.terminal = false)
    (hkind : event.kind ≠ .queued ∧ event.kind ≠ .refused)
    (hstart : event.kind = .started → ∃ slot, s.registry.triggers.get? run.record.triggerId = some slot ∧
      (inFlightRuns s.registry run.record.concurrencyKey).length < slot.definition.maxInFlight)
    {clock : ℤ} (hclock : s.clock ≤ clock) :
    Sound R { (s.log (.runEvent run.record.triggerId run.record.runId at_ run.record event)).setRun
      run.record.runId ⟨run.record, run.events ++ [event]⟩ with clock } := by
  have hid : run.record.runId = runId := hs.runKey runId run hrun
  rw [hid]
  have hstate := state_append run event
  -- an event makes no run queued or refused that was not
  have hstays : ∀ st, st = .queued ∨ st = .refused → RunSlot.state ⟨run.record, run.events ++ [event]⟩ = st →
      run.state = st := by
    intro st hst h
    rw [hstate] at h
    cases hk : event.kind with
    | queued => exact absurd hk hkind.1
    | refused => exact absurd hk hkind.2
    | heartbeat => rwa [hk] at h
    | startRefused => rwa [hk] at h
    | _ =>
        rw [hk] at h
        subst h
        obtain h | h := hst <;> cases h
  generalize ht : { (s.log (.runEvent run.record.triggerId runId at_ run.record event)).setRun
      runId ⟨run.record, run.events ++ [event]⟩ with clock } = t
  have hruns : t.registry.runs = s.registry.runs.set runId ⟨run.record, run.events ++ [event]⟩ := by rw [← ht]; rfl
  have htriggers : t.registry.triggers = s.registry.triggers := by rw [← ht]; rfl
  have hnow : t.clock = clock := by rw [← ht]
  -- a run of after was there with its record, and not refused if it is not now
  have hget : ∀ id r, t.registry.runs.get? id = some r → ∃ old, s.registry.runs.get? id = some old ∧
      r.record = old.record ∧ (r.state ≠ .refused → old.state ≠ .refused) := by
    intro id r h
    rw [hruns] at h
    by_cases hne : id = runId
    · subst hne
      rw [Record.get?_set_self] at h
      obtain rfl := Option.some.inj h
      refine ⟨run, hrun, rfl, ?_⟩
      intro _ hrefused
      rw [hrefused] at hopen
      cases hopen
    · rw [Record.get?_set_of_ne _ _ hne] at h
      exact ⟨r, h, rfl, fun hr => hr⟩
  have hcounts : ∀ p : RunSlot → Bool, (t.registry.runs.values.filter p).length + (if p run then 1 else 0)
      = (s.registry.runs.values.filter p).length + if p ⟨run.record, run.events ++ [event]⟩ then 1 else 0 := by
    intro p
    rw [hruns]
    exact Record.length_filter_set p _ hrun
  refine ⟨?_, ?_, ?_, ?_, ?_, ?_, ?_, ?_⟩
  · intro id r h
    obtain ⟨old, hold, hrec, -⟩ := hget id r h
    rw [hrec]
    exact hs.runKey id old hold
  · intro id r h
    obtain ⟨old, hold, -, -⟩ := hget id r h
    have hseq : t.registry.sequence = s.registry.sequence := by rw [← ht]; rfl
    rw [hseq]
    exact hs.numbered id old hold
  · rw [htriggers]
    exact hs.triggerKey
  · intro id r h
    obtain ⟨old, hold, hrec, -⟩ := hget id r h
    rw [htriggers, hrec]
    exact hs.ofTrigger id old hold
  · intro id id' r r' h h' hne hsame hr hr'
    obtain ⟨old, hold, hrec, hst⟩ := hget id r h
    obtain ⟨old', hold', hrec', hst'⟩ := hget id' r' h'
    rw [hrec, hrec'] at hsame ⊢
    exact hs.distinct id id' old old' hold hold' hne hsame (hst hr) (hst' hr')
  · intro id slot now hslot hle
    rw [htriggers] at hslot
    rw [hnow] at hle
    have hbefore := hs.queue id slot now hslot (hclock.trans hle)
    rw [length_queuedRuns] at hbefore ⊢
    have hcount := hcounts (RunSlot.waits R id now)
    have himp : RunSlot.waits R id now ⟨run.record, run.events ++ [event]⟩ = true →
        RunSlot.waits R id now run = true := by
      intro h
      rw [RunSlot.waits, Bool.and_eq_true, Bool.and_eq_true, decide_eq_true_eq] at h ⊢
      exact ⟨⟨hstays _ (Or.inl rfl) h.1.1, h.1.2⟩, h.2⟩
    split_ifs at hcount with h1 h2
    · omega
    · omega
    · exact absurd (himp ‹_›) h1
    · omega
  · intro key
    have hcount : (inFlightRuns t.registry key).length + (if run.flies key then 1 else 0)
        = (inFlightRuns s.registry key).length
          + if RunSlot.flies key ⟨run.record, run.events ++ [event]⟩ then 1 else 0 := hcounts (RunSlot.flies key)
    rw [htriggers]
    by_cases hroom : event.kind = .started ∧ run.record.concurrencyKey = key
    · -- the run starts under this key
      obtain ⟨slot, hslot, hlt⟩ := hstart hroom.1
      obtain ⟨slot', hslot', hck⟩ := hs.ofTrigger runId run hrun
      have hsame : slot' = slot := Option.some.inj (hslot'.symm.trans hslot)
      rw [hroom.2] at hlt
      refine Or.inr ⟨run.record.triggerId, slot, hslot, ?_, ?_⟩
      · rw [← hsame, ← hck, hroom.2]
      · have hle : (if RunSlot.flies key ⟨run.record, run.events ++ [event]⟩ = true then 1 else 0) ≤ 1 := by
          split <;> omega
        omega
    · have himp : RunSlot.flies key ⟨run.record, run.events ++ [event]⟩ = true → run.flies key = true := by
        intro h
        rw [RunSlot.flies, Bool.and_eq_true, decide_eq_true_eq, decide_eq_true_eq] at h ⊢
        refine ⟨h.1, ?_⟩
        have hin := h.2
        rw [hstate] at hin
        cases hk : event.kind with
        | started => exact absurd ⟨hk, h.1⟩ hroom
        | heartbeat => rwa [hk] at hin
        | startRefused => rwa [hk] at hin
        | _ =>
            rw [hk] at hin
            cases hin
      have hle : (inFlightRuns t.registry key).length ≤ (inFlightRuns s.registry key).length := by
        split_ifs at hcount with h1 h2
        · omega
        · omega
        · exact absurd (himp ‹_›) h1
        · omega
      obtain hzero | ⟨id, slot, hslot, hck, hmax⟩ := hs.inFlight key
      · left
        omega
      · exact Or.inr ⟨id, slot, hslot, hck, hle.trans hmax⟩
  · have hentry : replayJournal t.journal
        = (replayJournal s.journal).read (.runEvent run.record.triggerId runId at_ run.record event) := by
      rw [← ht]
      exact replayJournal_log s _
    rw [hentry, hs.journal, TriggerMemory.read]
    simp only [AutomationTriggerRegistry.memory, hrun]
    rw [← ht]
    rfl

/-- Every call keeps the invariant. -/
theorem Sound.of_effect (hs : Sound R s) (hclock : s.clock ≤ call.now) (he : Effect R call s t) :
    Sound R { t with clock := call.now } := by
  cases he with
  | idle n hn => exact hs.idle hn hclock
  | flow flow => exact hs.flow flow call.iso hclock
  | trigger d hnew =>
      refine hs.setTrigger ⟨d, .active, "registered".toList, call.iso⟩ _ rfl ?_ rfl hclock
      intro old hold
      rw [hnew] at hold
      cases hold
  | activation triggerId slot state reason hslot =>
      refine hs.setTrigger ⟨slot.definition, state, reason, call.iso⟩ _ (hs.triggerKey triggerId slot hslot) ?_ ?_
        hclock
      · intro old hold
        rw [Option.some.inj (hold.symm.trans hslot)]
      · simp only [TriggerMemory.read, AutomationTriggerRegistry.memory, hslot]
  | newRun triggerId slot record event at_ hslot hid htrigger hkey hkind =>
      exact hs.newRun at_ hslot hid htrigger hkey hclock hkind
  | event runId run event at_ hrun hopen hkind hstart => exact hs.event at_ hrun hopen hkind hstart hclock

theorem sound_of_run {clock : ℤ} {es : List (Call × TriggerOp)}
    (h : Run (TriggerStep R) (TriggerSystem.empty clock) es s) : Sound R s := by
  apply h.invariant _ (Sound.empty R clock)
  rintro s e t hs ⟨hclock, rfl⟩
  exact hs.of_effect hclock (after_effect e.2)

/-- A terminal run is left as it is. -/
theorem Effect.terminal (hs : Sound R s) (he : Effect R call s t) {id : Text} {run : RunSlot}
    (hrun : s.registry.runs.get? id = some run) (hterminal : run.state.terminal = true) :
    t.registry.runs.get? id = some run := by
  cases he with
  | idle n hn => exact hrun
  | flow flow => exact hrun
  | trigger d hnew => exact hrun
  | activation triggerId slot state reason hslot => exact hrun
  | newRun triggerId slot record event at_ hslot hid htrigger hkey hkind =>
      have hne : id ≠ record.runId := by
        rintro rfl
        rw [hid, hs.get?_runIdOf_succ] at hrun
        cases hrun
      exact (Record.get?_set_of_ne _ _ hne).trans hrun
  | event runId other event at_ hother hopen hkind hstart =>
      have hne : id ≠ other.record.runId := by
        rintro rfl
        rw [hs.runKey runId other hother, hother] at hrun
        rw [Option.some.inj hrun, hterminal] at hopen
        cases hopen
      exact (Record.get?_set_of_ne _ _ hne).trans hrun

theorem terminal_of_run (hs : Sound R s) {es : List (Call × TriggerOp)} (h : Run (TriggerStep R) s es t)
    {id : Text} {run : RunSlot} (hrun : s.registry.runs.get? id = some run)
    (hterminal : run.state.terminal = true) : t.registry.runs.get? id = some run := by
  have hboth : Sound R t ∧ t.registry.runs.get? id = some run := by
    apply h.invariant _ ⟨hs, hrun⟩
    rintro s e t ⟨hs, hrun⟩ ⟨hclock, rfl⟩
    have he : Effect R e.1 s (s.after R e.1 e.2) := after_effect e.2
    exact ⟨hs.of_effect hclock he, he.terminal hs hrun hterminal⟩
  exact hboth.2

/-- The largest in-flight limit among the triggers that use a concurrency key. -/
def inFlightLimit (registry : AutomationTriggerRegistry) (key : Text) : ℕ :=
  ((registry.triggers.values.filter fun slot => slot.definition.concurrencyKey = key).map fun slot =>
    slot.definition.maxInFlight).foldr max 0

theorem le_inFlightLimit {registry : AutomationTriggerRegistry} {id : Text} {slot : TriggerSlot}
    (h : registry.triggers.get? id = some slot) :
    slot.definition.maxInFlight ≤ inFlightLimit registry slot.definition.concurrencyKey := by
  apply List.le_max_of_le'
  · apply List.mem_map_of_mem
    exact List.mem_filter.mpr ⟨Record.mem_values_iff.mpr ⟨id, h⟩, decide_eq_true rfl⟩
  · exact le_rfl

theorem registry_invariants (R : Runtime) (clock : ℤ) (es : List (Call × TriggerOp)) (s : TriggerSystem)
    (h : Run (TriggerStep R) (TriggerSystem.empty clock) es s) :
    (∀ id id' run run', s.registry.runs.get? id = some run → s.registry.runs.get? id' = some run' → id ≠ id' →
        run.record.triggerId = run'.record.triggerId → run.state ≠ .refused → run'.state ≠ .refused →
        run.record.idempotencyKey ≠ run'.record.idempotencyKey ∧
          ∀ d, run.record.deliveryId = some d → run'.record.deliveryId ≠ some d) ∧
    (∀ id slot now, s.registry.triggers.get? id = some slot → s.clock ≤ now →
        (queuedRuns R s.registry id now).length ≤ slot.definition.maxQueued) ∧
    (∀ key, (inFlightRuns s.registry key).length ≤ inFlightLimit s.registry key) ∧
    (∀ fs t, Run (TriggerStep R) s fs t → ∀ id run, s.registry.runs.get? id = some run →
        run.state.terminal = true → t.registry.runs.get? id = some run) ∧
    replayJournal s.journal = s.registry.memory := by
  have hs : Sound R s := sound_of_run h
  refine ⟨?_, hs.queue, ?_, ?_, hs.journal⟩
  · intro id id' run run' hrun hrun' hne hsame hstate hstate'
    have hno := hs.distinct id id' run run' hrun hrun' hne hsame hstate hstate'
    refine ⟨fun hkey => hno (Or.inl hkey), ?_⟩
    intro d hd hd'
    exact hno (Or.inr ⟨d, hd, hd'⟩)
  · intro key
    obtain hzero | ⟨id, slot, hslot, rfl, hle⟩ := hs.inFlight key
    · rw [hzero]
      exact Nat.zero_le _
    · exact hle.trans (le_inFlightLimit hslot)
  · intro fs t hrest id run hrun hterminal
    exact terminal_of_run hs hrest hrun hterminal

/-! ### One started run -/

def epochText : Text := "1970-01-01T00:00:00.000Z".toList

def minuteText : Text := "1970-01-01T00:01:00.000Z".toList

/-- The runtime on the dates of the first minute. -/
def minuteRuntime : Runtime where
  parse t := if t = epochText then some 0 else if t = minuteText then some 60000 else none
  iso ms := if ms = 0 then epochText else minuteText
  timezoneProblem _ := none

def sampleRow (l : List (String × Json)) : Json := .obj (l.map fun e => (e.1.toList, e.2))

def sampleText (t : String) : Json := .str t.toList

def sampleAction : Json :=
  sampleRow [("version", sampleText "automation-action-v1"), ("actionId", sampleText "a1"), ("capability", sampleText "repo.read"),
    ("summary", sampleText "reads"), ("scope", sampleRow [("flowId", sampleText "f1"), ("repo", sampleText "r1")]), ("risk", sampleText "low"),
    ("preconditions", .arr [sampleRow [("id", sampleText "p1"), ("source", sampleText "ledger"), ("description", sampleText "d")]]),
    ("freshness", sampleRow [("maxAgeSeconds", .num "60".toList)]), ("idempotencyKey", sampleText "k"),
    ("createdAt", .str epochText), ("expiresAt", .str minuteText), ("dryRun", .bool true),
    ("approval", sampleRow [("policy", sampleText "none")]),
    ("rollback", sampleRow [("mode", sampleText "reversible"), ("plan", sampleText "undo")]), ("receiptRef", sampleText "ref")]

def sampleTrigger : Json :=
  sampleRow [("version", sampleText "automation-trigger-v1"), ("triggerId", sampleText "t1"), ("flowId", sampleText "f1"),
    ("activation", sampleRow [("mode", sampleText "manual")]), ("scope", sampleRow [("repo", sampleText "r1")]),
    ("profileId", sampleText "p1"), ("limits", sampleRow [("maxQueued", .num "1".toList), ("maxInFlight", .num "1".toList)]),
    ("expirySeconds", .num "60".toList), ("staleAfterSeconds", .num "60".toList)]

/-- A manual request with an idempotency key. -/
def sampleRequest (key : String) : Json :=
  sampleRow [("version", sampleText "automation-trigger-v1"), ("triggerId", sampleText "t1"), ("source", sampleText "manual"),
    ("idempotencyKey", sampleText key), ("requestedBy", sampleText "o"), ("requestedAt", .str epochText)]

def sampleStart (runId : String) : TriggerOp := .start runId.toList (.ok (.resolved "p1".toList "1".toList))

/-- Calls at the epoch, with what the journal throws.  The first request is started and comes again;
the second is lost with the journal and comes again; the third finds the queue full; and the second
does not start beside the first. -/
def sampleCalls : List (Option Text × TriggerOp) :=
  [(none, .registerFlow "f1".toList sampleAction ["repo.read".toList]), (none, .registerTrigger sampleTrigger),
    (none, .submit (sampleRequest "k1")), (none, sampleStart "atr-000001"), (none, .submit (sampleRequest "k1")),
    (some "disk full".toList, .submit (sampleRequest "k2")), (none, .submit (sampleRequest "k2")),
    (none, .submit (sampleRequest "k3")), (none, sampleStart "atr-000003")]

def sampleAfter (s : TriggerSystem) (c : Option Text × TriggerOp) : TriggerSystem :=
  { s.after minuteRuntime ⟨0, epochText, c.1⟩ c.2 with clock := 0 }

def sampleSystem : TriggerSystem := sampleCalls.foldl sampleAfter (TriggerSystem.empty 0)

theorem run_sampleAfter (calls : List (Option Text × TriggerOp)) (s : TriggerSystem) (hs : s.clock ≤ 0) :
    ∃ es, Run (TriggerStep minuteRuntime) s es (calls.foldl sampleAfter s) := by
  induction calls generalizing s with
  | nil => exact ⟨[], Run.nil⟩
  | cons c calls ih =>
      obtain ⟨es, hes⟩ := ih (sampleAfter s c) le_rfl
      exact ⟨(⟨0, epochText, c.1⟩, c.2) :: es, Run.cons ⟨hs, rfl⟩ hes⟩

/-- One run is in flight, one queued and one refused. -/
theorem runs_sampleSystem :
    (sampleSystem.registry.runSlots.map fun run => (run.record.runId, run.record.idempotencyKey, run.state)) =
        [("atr-000001".toList, "k1".toList, .inProgress), ("atr-000003".toList, "k2".toList, .queued),
          ("atr-000004".toList, "k3".toList, .refused)] ∧
      (queuedRuns minuteRuntime sampleSystem.registry "t1".toList 0).length = 1 ∧
      (inFlightRuns sampleSystem.registry "t1".toList).length = 1 := by
  decide +kernel

/-- The runs of the sample are within the limits of their trigger and as the journal says. -/
theorem registry_invariants_limited :
    (sampleSystem.registry.runSlots.map fun run => (run.record.runId, run.record.idempotencyKey, run.state)) =
        [("atr-000001".toList, "k1".toList, .inProgress), ("atr-000003".toList, "k2".toList, .queued),
          ("atr-000004".toList, "k3".toList, .refused)] ∧
      (queuedRuns minuteRuntime sampleSystem.registry "t1".toList 0).length = 1 ∧
      (∀ slot, sampleSystem.registry.triggers.get? "t1".toList = some slot →
        (queuedRuns minuteRuntime sampleSystem.registry "t1".toList 0).length ≤ slot.definition.maxQueued) ∧
      (inFlightRuns sampleSystem.registry "t1".toList).length = 1 ∧
      (inFlightRuns sampleSystem.registry "t1".toList).length ≤ inFlightLimit sampleSystem.registry "t1".toList ∧
      replayJournal sampleSystem.journal = sampleSystem.registry.memory := by
  obtain ⟨es, hes⟩ := run_sampleAfter sampleCalls (TriggerSystem.empty 0) le_rfl
  have hall := registry_invariants minuteRuntime 0 es sampleSystem hes
  obtain ⟨hruns, hqueued, hflight⟩ := runs_sampleSystem
  exact ⟨hruns, hqueued, fun slot hslot => hall.2.1 _ slot 0 hslot le_rfl, hflight, hall.2.2.1 _, hall.2.2.2.2⟩

end Remudero.Automation
