import Remudero.Lib.Record
import Remudero.Lib.Text
import Remudero.Lib.Transition

/-! # The incident lifecycle pass

`runIncidentLifecyclePass` of `lib/incident-lifecycle.ts` looks at every deployed incident of the store.  One
that stayed quiet through the window is verified and its kind credited, one that fired again is regressed
and its kind debited.  The credits are in a file of their own, the class record, which is written at each
transition; the store is written once, at the end of the pass.

A crash between two durable writes leaves the earlier ones.  A pass that dies after a credit and before the
store leaves the incident deployed, and the next pass credits it again (`incident_credited_twice`).  Runs
without such a pass credit or debit each fingerprint at most once: `incident_adjusted_once`.

Fields of an incident that the pass does not read are left out, and so are its log lines. -/

namespace Remudero.Incident

open Remudero.Lib

inductive IncidentKind where
  | exception
  | http5xx
  | latency
  | invariant
deriving DecidableEq, Repr

inductive IncidentStatus where
  | new
  | filed
  | building
  | deployed
  | verified
  | regressed
deriving DecidableEq, Repr

structure IncidentLifecycleRecord where
  fingerprint : Text
  kind : IncidentKind
  status : IncidentStatus
  lastSeenMs : ℚ
  deployedAtMs : Option ℚ
deriving DecidableEq, Repr

/-- The incidents by key. -/
abbrev IncidentLifecycleStore := Record Text IncidentLifecycleRecord

/-- `INCIDENT_VERIFY_WINDOW_MS`. -/
def incidentVerifyWindowMs : ℚ := 24 * 60 * 60000

def evaluateDeployedIncident (record : IncidentLifecycleRecord) (latestEventMsSinceDeploy : Option ℚ) (nowMs windowMs : ℚ) :
    IncidentLifecycleRecord :=
  match record.status, record.deployedAtMs with
  | .deployed, some deployedAtMs =>
      match latestEventMsSinceDeploy.filter (deployedAtMs < ·) with
      | some latest => { record with status := .regressed, lastSeenMs := latest }
      | none => if windowMs ≤ nowMs - deployedAtMs then { record with status := .verified } else record
  | _, _ => record

/-! ### The class record -/

structure ClassRecord where
  alpha : ℕ
  beta : ℕ
deriving DecidableEq, Repr

/-- `initialGardenState`, what is read while the file is missing. -/
def initialGardenState : IncidentKind → ClassRecord := fun _ => ⟨3, 1⟩

/-- The write of `adjustIncidentClass`: verified credits, regressed debits. -/
def adjustIncidentClass (classes : IncidentKind → ClassRecord) (kind : IncidentKind) (credit : Bool) :
    IncidentKind → ClassRecord :=
  let current := classes kind
  Function.update classes kind
    (if credit then { current with alpha := current.alpha + 1 } else { current with beta := current.beta + 1 })

/-! ### One pass -/

/-- What a pass is given: its clock, the window and the read of the events after a deploy. -/
structure PassInput where
  nowMs : ℚ
  windowMs : ℚ := incidentVerifyWindowMs
  latestEventMsSince : Text → ℚ → Option ℚ

/-- A credit or debit, with the incident it is for. -/
structure Adjustment where
  fingerprint : Text
  kind : IncidentKind
  credit : Bool
deriving DecidableEq, Repr

/-- A durable write. -/
inductive Write where
  | classes (adjustment : Adjustment)
  | store (next : IncidentLifecycleStore)

/-- The variables of the loop and the class writes so far. -/
structure Pass where
  next : IncidentLifecycleStore
  changed : Bool
  adjustments : List Adjustment

/-- The credit or debit of a transition. -/
def adjustmentOf (updated : IncidentLifecycleRecord) : List Adjustment :=
  if updated.status = .verified then [⟨updated.fingerprint, updated.kind, true⟩]
  else if updated.status = .regressed then [⟨updated.fingerprint, updated.kind, false⟩]
  else []

/-- The body of the loop. -/
def visit (input : PassInput) (pass : Pass) (record : IncidentLifecycleRecord) : Pass :=
  match record.status, record.deployedAtMs with
  | .deployed, some deployedAtMs =>
      let latest := input.latestEventMsSince record.fingerprint deployedAtMs
      let updated := evaluateDeployedIncident record latest input.nowMs input.windowMs
      if updated.status = record.status then pass
      else
        { next := pass.next.set record.fingerprint updated
          changed := true
          adjustments := pass.adjustments ++ adjustmentOf updated }
  | _, _ => pass

def runPass (store : IncidentLifecycleStore) (input : PassInput) : Pass :=
  store.values.foldl (visit input) { next := store, changed := false, adjustments := [] }

/-- The durable writes of `runIncidentLifecyclePass`, in order. -/
def passWrites (store : IncidentLifecycleStore) (input : PassInput) : List Write :=
  let pass := runPass store input
  pass.adjustments.map .classes ++ if pass.changed then [.store pass.next] else []

/-! ### Runs -/

/-- The two files, and every adjustment written so far. -/
structure Disk where
  store : IncidentLifecycleStore
  classes : IncidentKind → ClassRecord
  adjusted : List Adjustment

def Disk.write (d : Disk) : Write → Disk
  | .classes a =>
      { d with classes := adjustIncidentClass d.classes a.kind a.credit, adjusted := d.adjusted ++ [a] }
  | .store next => { d with store := next }

/-- A pass from the store on disk; with `some n` it dies after `n` of its durable writes. -/
structure PassEvent where
  input : PassInput
  crashAfter : Option ℕ

def Disk.next (d : Disk) (e : PassEvent) : Option Disk :=
  let writes := passWrites d.store e.input
  match e.crashAfter with
  | none => some (writes.foldl Disk.write d)
  | some n => if n < writes.length then some ((writes.take n).foldl Disk.write d) else none

def Disk.Step (d : Disk) (e : PassEvent) (d' : Disk) : Prop := d.next e = some d'

/-- The pass does not die once it has written something. -/
def Untorn (_ : Disk) (e : PassEvent) : Prop := e.crashAfter = none ∨ e.crashAfter = some 0

/-- Every incident is stored under its own fingerprint. -/
def Keyed (store : IncidentLifecycleStore) : Prop := ∀ k r, store.get? k = some r → r.fingerprint = k

/-- Nothing has been adjusted yet. -/
def Disk.start (store : IncidentLifecycleStore) (classes : IncidentKind → ClassRecord) : Disk := ⟨store, classes, []⟩

/-! ### What a pass writes -/

section Pass

variable {input : PassInput} {store : IncidentLifecycleStore}

/-- The adjustments of one fingerprint. -/
def adjustedFor (fp : Text) (as : List Adjustment) : ℕ := as.countP fun a => a.fingerprint == fp

/-- `1` while the incident `fp` waits for its outcome. -/
def due (store : IncidentLifecycleStore) (fp : Text) : ℕ :=
  if (store.get? fp).any fun r => decide (r.status = .deployed) then 1 else 0

/-- An evaluation that changes the status settles the incident. -/
theorem evaluateDeployedIncident_cases (record : IncidentLifecycleRecord) (latest : Option ℚ) (nowMs windowMs : ℚ) :
    evaluateDeployedIncident record latest nowMs windowMs = record ∨
      let updated := evaluateDeployedIncident record latest nowMs windowMs
      updated.fingerprint = record.fingerprint ∧
        (updated.status = .verified ∨ updated.status = .regressed) := by
  unfold evaluateDeployedIncident
  split
  next => 
    split
    next => exact .inr ⟨rfl, .inr rfl⟩
    next =>
      split
      · exact .inr ⟨rfl, .inl rfl⟩
      · exact .inl rfl
  next => exact .inl rfl

theorem adjustmentOf_settled {updated : IncidentLifecycleRecord}
    (h : updated.status = .verified ∨ updated.status = .regressed) :
    ∃ a, adjustmentOf updated = [a] ∧ a.fingerprint = updated.fingerprint := by
  rcases h with h | h
  · exact ⟨⟨updated.fingerprint, updated.kind, true⟩, by simp [adjustmentOf, h], rfl⟩
  · exact ⟨⟨updated.fingerprint, updated.kind, false⟩, by simp [adjustmentOf, h], rfl⟩

/-- One turn of the loop: nothing, or a deployed incident is settled and adjusted once. -/
theorem visit_cases (input : PassInput) (pass : Pass) (record : IncidentLifecycleRecord) :
    visit input pass record = pass ∨
      record.status = .deployed ∧ ∃ updated a, updated.fingerprint = record.fingerprint ∧
        updated.status ≠ .deployed ∧ a.fingerprint = record.fingerprint ∧
        visit input pass record =
          { next := pass.next.set record.fingerprint updated
            changed := true
            adjustments := pass.adjustments ++ [a] } := by
  simp only [visit]
  split
  next deployedAtMs hstatus hat =>
    split
    · exact .inl rfl
    next hne =>
      obtain heq | ⟨hfp, hsettled⟩ := evaluateDeployedIncident_cases record
        (input.latestEventMsSince record.fingerprint deployedAtMs) input.nowMs input.windowMs
      · exact absurd (congrArg _ heq) hne
      · obtain ⟨a, ha, hafp⟩ := adjustmentOf_settled hsettled
        refine .inr ⟨hstatus, _, a, hfp, ?_, hafp.trans hfp, by rw [ha]⟩
        rcases hsettled with h | h <;> simp [h]
  next => exact .inl rfl

/-- What the rest of the loop relies on: every incident still to be visited is as the store has it. -/
def Waiting (next : IncidentLifecycleStore) (rs : List IncidentLifecycleRecord) : Prop :=
  (rs.map IncidentLifecycleRecord.fingerprint).Nodup ∧ ∀ r ∈ rs, next.get? r.fingerprint = some r

theorem due_set_settled {next : IncidentLifecycleStore} {r updated : IncidentLifecycleRecord} (fp : Text)
    (hr : next.get? r.fingerprint = some r) (hdeployed : r.status = .deployed) (hsettled : updated.status ≠ .deployed) :
    due (next.set r.fingerprint updated) fp + (if r.fingerprint = fp then 1 else 0) = due next fp := by
  unfold due
  by_cases hfp : r.fingerprint = fp
  · subst hfp
    simp [Record.get?_set_self, hr, hdeployed, hsettled]
  · simp [Record.get?_set_of_ne next updated (Ne.symm hfp), hfp]

theorem Waiting.tail {next : IncidentLifecycleStore} {r : IncidentLifecycleRecord} {rs : List IncidentLifecycleRecord}
    (h : Waiting next (r :: rs)) : Waiting next rs :=
  ⟨(List.nodup_cons.mp h.1).2, fun q hq => h.2 q (List.mem_cons_of_mem r hq)⟩

/-- Settling the visited incident leaves the others as they are. -/
theorem Waiting.set {next : IncidentLifecycleStore} {r updated : IncidentLifecycleRecord}
    {rs : List IncidentLifecycleRecord} (h : Waiting next (r :: rs)) :
    Waiting (next.set r.fingerprint updated) rs := by
  refine ⟨h.tail.1, fun q hq => ?_⟩
  have hne : q.fingerprint ≠ r.fingerprint := by
    intro heq
    apply (List.nodup_cons.mp h.1).1
    rw [← heq]
    exact List.mem_map_of_mem hq
  rw [Record.get?_set_of_ne next updated hne]
  exact h.tail.2 q hq

theorem Keyed.set {next : IncidentLifecycleStore} {updated : IncidentLifecycleRecord} {k : Text} (h : Keyed next)
    (hk : updated.fingerprint = k) : Keyed (next.set k updated) := by
  intro k' r hr
  by_cases hkk : k' = k
  · subst hkk
    rw [Record.get?_set_self] at hr
    obtain rfl := Option.some.inj hr
    exact hk
  · rw [Record.get?_set_of_ne next updated hkk] at hr
    exact h k' r hr

/-- Over the whole loop an adjustment is written exactly where an incident stops being due. -/
theorem foldl_visit {rs : List IncidentLifecycleRecord} {pass : Pass} (hwait : Waiting pass.next rs)
    (hkeyed : Keyed pass.next) (fp : Text) :
    let out := rs.foldl (visit input) pass
    Keyed out.next ∧
      adjustedFor fp out.adjustments + due out.next fp = adjustedFor fp pass.adjustments + due pass.next fp := by
  induction rs generalizing pass with
  | nil => exact ⟨hkeyed, rfl⟩
  | cons r rs ih =>
      rw [List.foldl_cons]
      obtain heq | ⟨hdeployed, updated, a, hfp, hsettled, hafp, heq⟩ := visit_cases input pass r
      · rw [heq]
        exact ih hwait.tail hkeyed
      · have hr := hwait.2 r List.mem_cons_self
        have hdue := due_set_settled fp hr hdeployed hsettled
        rw [heq]
        obtain ⟨hkeyed', hcount⟩ := @ih ⟨pass.next.set r.fingerprint updated, true, pass.adjustments ++ [a]⟩
          hwait.set (hkeyed.set hfp)
        refine ⟨hkeyed', hcount.trans ?_⟩
        simp only [adjustedFor, List.countP_append, List.countP_singleton, hafp, beq_iff_eq]
        omega

theorem waiting_values (h : Keyed store) : Waiting store store.values := by
  have hkeys : store.values.map IncidentLifecycleRecord.fingerprint = store.entries.map Prod.fst := by
    rw [Record.values, List.map_map]
    apply List.map_congr_left
    rintro ⟨k, r⟩ hmem
    exact h k r (Record.mem_entries_iff.mp hmem)
  refine ⟨hkeys ▸ store.nodup, fun r hr => ?_⟩
  obtain ⟨k, hk⟩ := Record.mem_values_iff.mp hr
  rw [h k r hk]
  exact hk

/-- A pass that changes nothing leaves the store it was given. -/
theorem foldl_visit_unchanged {rs : List IncidentLifecycleRecord} {pass : Pass}
    (h : (rs.foldl (visit input) pass).changed = false) :
    pass.changed = false ∧ (rs.foldl (visit input) pass).next = pass.next := by
  induction rs generalizing pass with
  | nil => exact ⟨h, rfl⟩
  | cons r rs ih =>
      rw [List.foldl_cons] at h ⊢
      obtain heq | ⟨-, updated, a, -, -, -, heq⟩ := visit_cases input pass r
      · rw [heq] at h ⊢
        exact ih h
      · rw [heq] at h
        exact absurd (ih h).1 (by simp)

end Pass

/-! ### Runs without a torn pass -/

section Runs

variable {d d' : Disk}

/-- The class record after a list of adjustments. -/
def adjustAll (classes : IncidentKind → ClassRecord) (as : List Adjustment) : IncidentKind → ClassRecord :=
  as.foldl (fun classes a => adjustIncidentClass classes a.kind a.credit) classes

theorem foldl_write_classes (d : Disk) (as : List Adjustment) :
    (as.map Write.classes).foldl Disk.write d =
      { d with classes := adjustAll d.classes as, adjusted := d.adjusted ++ as } := by
  induction as generalizing d with
  | nil => simp [adjustAll]
  | cons a as ih => simp [ih, Disk.write, adjustAll]

/-- A pass that is not cut writes its adjustments and the store that goes with them. -/
theorem foldl_write_passWrites (d : Disk) (input : PassInput) :
    (passWrites d.store input).foldl Disk.write d =
      { store := (runPass d.store input).next
        classes := adjustAll d.classes (runPass d.store input).adjustments
        adjusted := d.adjusted ++ (runPass d.store input).adjustments } := by
  simp only [passWrites, List.foldl_append, foldl_write_classes]
  cases hchanged : (runPass d.store input).changed with
  | true => simp [Disk.write]
  | false =>
      have hsame := (foldl_visit_unchanged hchanged).2
      simpa [runPass] using hsame.symm

/-- No fingerprint was adjusted twice, and none that is still due was adjusted at all. -/
structure Inv (classes : IncidentKind → ClassRecord) (d : Disk) : Prop where
  keyed : Keyed d.store
  classes_eq : d.classes = adjustAll classes d.adjusted
  once : ∀ fp, adjustedFor fp d.adjusted + due d.store fp ≤ 1

theorem inv_step {classes : IncidentKind → ClassRecord} {e : PassEvent} (h : Inv classes d)
    (hs : Guarded Disk.Step Untorn d e d') : Inv classes d' := by
  obtain ⟨hstep, huntorn⟩ := hs
  unfold Disk.Step Disk.next at hstep
  rcases huntorn with hcrash | hcrash
  · rw [hcrash] at hstep
    obtain rfl := Option.some.inj hstep
    have hpass := fun fp => @foldl_visit e.input d.store.values ⟨d.store, false, []⟩ (waiting_values h.keyed) h.keyed fp
    rw [foldl_write_passWrites]
    refine ⟨(hpass []).1, ?_, fun fp => ?_⟩
    · simp [h.classes_eq, adjustAll]
    · have hsum := (hpass fp).2
      have honce := h.once fp
      simp only [adjustedFor, List.countP_append, List.countP_nil] at hsum honce ⊢
      unfold runPass
      omega
  · rw [hcrash] at hstep
    simp only [List.take_zero, List.foldl_nil] at hstep
    split at hstep
    · obtain rfl := Option.some.inj hstep
      exact h
    · cases hstep

end Runs

/-- If every incident is stored under its own fingerprint and no pass dies after its first durable write and
before its last, the class record is the one before the run after a list of adjustments that has at most one
for each fingerprint. -/
theorem incident_adjusted_once {store : IncidentLifecycleStore} {classes : IncidentKind → ClassRecord}
    {es : List PassEvent} {d : Disk} (hkeyed : Keyed store)
    (hr : Run (Guarded Disk.Step Untorn) (Disk.start store classes) es d) (fp : Text) :
    d.classes = adjustAll classes d.adjusted ∧ adjustedFor fp d.adjusted ≤ 1 := by
  have hstart : Inv classes (Disk.start store classes) := by
    refine ⟨hkeyed, rfl, fun fp => ?_⟩
    unfold due
    split <;> simp [Disk.start, adjustedFor]
  have hinv : Inv classes d := hr.invariant (I := Inv classes) (fun _ _ _ h hs => inv_step h hs) hstart
  have honce := hinv.once fp
  exact ⟨hinv.classes_eq, by omega⟩

/-- One incident, deployed at time 0. -/
def quietIncident : IncidentLifecycleRecord := ⟨['f'], .latency, .deployed, 0, some 0⟩

def quietStore : IncidentLifecycleStore := (∅ : IncidentLifecycleStore).set ['f'] quietIncident

/-- A look after the window, with no event since the deploy. -/
def quietPass : PassInput := { nowMs := incidentVerifyWindowMs, latestEventMsSince := fun _ _ => none }

/-- The incident is verified by the second of three passes, the first of which dies before it writes. -/
theorem quiet_incident_credited_once : ∃ d,
    Run (Guarded Disk.Step Untorn) (Disk.start quietStore initialGardenState)
      [⟨quietPass, some 0⟩, ⟨quietPass, none⟩, ⟨quietPass, none⟩] d ∧
    (d.classes .latency).alpha = 4 ∧ adjustedFor ['f'] d.adjusted ≤ 1 := by
  have hkeyed : Keyed quietStore := Keyed.set (fun k r h => by cases h) rfl
  have hrun : ([⟨quietPass, some 0⟩, ⟨quietPass, none⟩, ⟨quietPass, none⟩].foldlM Disk.next
      (Disk.start quietStore initialGardenState)).map (fun d => (d.classes .latency).alpha) = some 4 := by
    decide +kernel
  obtain ⟨d, hd, halpha⟩ := Option.map_eq_some_iff.mp hrun
  have hr : Run (Guarded Disk.Step Untorn) _ _ d := (Run.of_foldlM hd).guarded (by simp [Untorn])
  exact ⟨d, hr, halpha, (incident_adjusted_once hkeyed hr ['f']).2⟩

/-- The first pass dies after the credit and before the store; the second finds the incident deployed and
credits it again. -/
theorem incident_credited_twice : ∃ d,
    Run Disk.Step (Disk.start quietStore initialGardenState) [⟨quietPass, some 1⟩, ⟨quietPass, none⟩] d ∧
    adjustedFor ['f'] d.adjusted = 2 ∧ (d.classes .latency).alpha = 5 := by
  have hrun : ([⟨quietPass, some 1⟩, ⟨quietPass, none⟩].foldlM Disk.next
      (Disk.start quietStore initialGardenState)).map
        (fun d => (adjustedFor ['f'] d.adjusted, (d.classes .latency).alpha)) = some (2, 5) := by
    decide +kernel
  obtain ⟨d, hd, hval⟩ := Option.map_eq_some_iff.mp hrun
  exact ⟨d, Run.of_foldlM hd, congrArg Prod.fst hval, congrArg Prod.snd hval⟩

end Remudero.Incident
