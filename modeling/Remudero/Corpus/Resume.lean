import Remudero.Corpus.Read
import Remudero.Lib.Record

/-! # Resuming the analytics scan

`scanAnalyticsLedger` of `lib/analytics-route.ts` folds the archives in legs.  A leg reads the
archives after the last one of the leg before it, with a window of `maxRetainedLinesPerStep` lines
for each step, and is seeded with the fingerprints of the checkpoint: the last ones accepted for
each step, which `appendCheckpointTail` keeps from leg to leg.

Two things get lost in the checkpoint.  A row without a step has a window of its own in the reader
but leaves no fingerprint; and a leg hands over only its last `maxRetainedLinesPerStep`
fingerprints of a step, so one that was accepted again in a longer leg keeps its old place in the
tail.  `resumed_scan_eq` is the main result: when a row that occurs in an earlier leg has a step,
and either its leg has at most a window of distinct lines of the step or the row is still within a
window of its first occurrence (`Resumable`), the legs deliver together what one scan of all
archives delivers.  `TailOf.next` is the step: the checkpoint then holds the reader's own windows. -/

namespace Remudero.Corpus

open Remudero.Lib

def maxRetainedLinesPerStep : ℕ := 200

/-! ### The checkpoint -/

/-- The fingerprints accepted for each step, in the order the steps were met. -/
abbrev ByStep := List (Text × List Text)

def ByStep.rows (byStep : ByStep) : List (Text × Text) :=
  byStep.flatMap fun e => e.2.map fun mark => (e.1, mark)

variable (parseObject : Text → Option LedgerRow) (dateParse : Text → Option ℤ)
  (fingerprint : Text → Text)

/-- One more fingerprint of a step in the tail. -/
def pushTail (values : List Text) (mark : Text) : List Text :=
  lastN maxRetainedLinesPerStep (if mark ∈ values then values else values ++ [mark])

def appendCheckpointTail (seed accepted : List (Text × Text)) : List (Text × Text) :=
  ByStep.rows ((seed ++ accepted).foldl (fun byStep row =>
    assign row.1 (pushTail ((entryOf row.1 byStep).getD []) row.2) byStep) [])

/-- One more fingerprint accepted in a leg; a window of twice the size is cut back. -/
def pushAccepted (window : List Text) (mark : Text) : List Text :=
  let longer := window ++ [mark]
  if 2 * maxRetainedLinesPerStep ≤ longer.length then lastN maxRetainedLinesPerStep longer else longer

/-- `onAcceptedRecord`: a row without a step leaves nothing. -/
def onAcceptedRecord (byStep : ByStep) (x : Text × LedgerRow) : ByStep :=
  match x.2.step with
  | none => byStep
  | some step =>
      if step.isEmpty then byStep
      else assign step (pushAccepted ((entryOf step byStep).getD []) (fingerprint x.1)) byStep

def acceptedRows (delivered : List (Text × LedgerRow)) : List (Text × Text) :=
  ByStep.rows ((delivered.foldl (onAcceptedRecord fingerprint) []).map fun e =>
    (e.1, lastN maxRetainedLinesPerStep e.2))

/-! ### Legs -/

/-- Where a scan resumes: the last archive it folded, and the tail. -/
structure ResumePoint where
  lastArchive : Option Text := none
  tail : List (Text × Text) := []

/-- The read of a leg, to the end of the corpus or up to an archive. -/
def legOptions (point : ResumePoint) (stop : Option Text) : UnionOptions :=
  { dedupeWindowPerStep := some maxRetainedLinesPerStep, afterRotation := point.lastArchive
    stopAfterRotation := stop, dedupeSeed := point.tail }

/-- One leg: the rows it delivers. -/
def scanLeg (files : Files) (point : ResumePoint) (stop : Option Text) : List (Text × LedgerRow) :=
  openLedgerUnion parseObject dateParse fingerprint files (legOptions point stop)

/-- The point after a leg that stopped after an archive. -/
def resumeAfter (point : ResumePoint) (stop : Text) (delivered : List (Text × LedgerRow)) :
    ResumePoint :=
  { lastArchive := some stop
    tail := appendCheckpointTail point.tail (acceptedRows fingerprint delivered) }

/-- Legs that stop after the given archives, and a last one to the end of the corpus. -/
def scanLegs (files : Files) (point : ResumePoint) : List Text → List (Text × LedgerRow)
  | [] => scanLeg parseObject dateParse fingerprint files point none
  | stop :: stops =>
      let delivered := scanLeg parseObject dateParse fingerprint files point (some stop)
      delivered ++ scanLegs files (resumeAfter fingerprint point stop delivered) stops

/-- One scan of the whole corpus. -/
def scanAll (files : Files) : List (Text × LedgerRow) :=
  scanLeg parseObject dateParse fingerprint files {} none

/-! ### Fingerprints of a step -/

/-- The fingerprints of a step in a list of tail rows. -/
def tailMarks (rows : List (Text × Text)) (step : Text) : List Text := marksOf id step rows

theorem tailMarks_append (a b : List (Text × Text)) (step : Text) :
    tailMarks (a ++ b) step = tailMarks a step ++ tailMarks b step :=
  marksOf_append step a b

theorem tailMarks_cons (row : Text × Text) (rows : List (Text × Text)) (step : Text) :
    tailMarks (row :: rows) step =
      if row.1 = step then row.2 :: tailMarks rows step else tailMarks rows step :=
  marksOf_cons step row rows

theorem tailMarks_map (step step' : Text) (marks : List Text) :
    tailMarks (marks.map fun mark => (step', mark)) step = if step' = step then marks else [] := by
  induction marks with
  | nil => simp [tailMarks, marksOf]
  | cons mark marks ih =>
      rw [List.map_cons, tailMarks_cons, ih]
      split_ifs <;> rfl

theorem tailMarks_rows {byStep : ByStep} (h : (byStep.map Prod.fst).Nodup) (step : Text) :
    tailMarks (ByStep.rows byStep) step = (entryOf step byStep).getD [] := by
  induction byStep with
  | nil => rfl
  | cons e l ih =>
      rw [List.map_cons, List.nodup_cons] at h
      rw [ByStep.rows, List.flatMap_cons, tailMarks_append, tailMarks_map]
      have htail := ih h.2
      rw [ByStep.rows] at htail
      rw [htail]
      by_cases he : e.1 = step
      · have hnone : entryOf step l = none := by
          by_contra hsome
          obtain ⟨v, hv⟩ := Option.ne_none_iff_exists'.mp hsome
          exact h.1 (List.mem_map.mpr ⟨(step, v), mem_of_entryOf hv, he.symm⟩)
        simp [entryOf, he, hnone]
      · simp [entryOf, he]

/-- Folding pushes over rows works step by step. -/
theorem entryOf_foldl_push (push : List Text → Text → List Text) (rows : List (Text × Text))
    (byStep : ByStep) (step : Text) :
    (entryOf step (rows.foldl (fun byStep row =>
      assign row.1 (push ((entryOf row.1 byStep).getD []) row.2) byStep) byStep)).getD [] =
        (tailMarks rows step).foldl push ((entryOf step byStep).getD []) := by
  induction rows generalizing byStep with
  | nil => rfl
  | cons row rows ih =>
      rw [List.foldl_cons, ih, tailMarks_cons]
      by_cases hs : row.1 = step
      · subst hs
        rw [if_pos rfl, List.foldl_cons, entryOf_assign_self]
        rfl
      · rw [entryOf_assign_of_ne _ _ (Ne.symm hs), if_neg hs]

theorem nodup_foldl_push (push : List Text → Text → List Text) (rows : List (Text × Text))
    {byStep : ByStep} (h : (byStep.map Prod.fst).Nodup) :
    ((rows.foldl (fun byStep row =>
      assign row.1 (push ((entryOf row.1 byStep).getD []) row.2) byStep) byStep).map
        Prod.fst).Nodup := by
  induction rows generalizing byStep with
  | nil => exact h
  | cons row rows ih => exact ih (nodup_assign _ h)

/-- The tail of a step after a leg. -/
theorem tailMarks_appendCheckpointTail (seed accepted : List (Text × Text)) (step : Text) :
    tailMarks (appendCheckpointTail seed accepted) step =
      (tailMarks accepted step).foldl pushTail ((tailMarks seed step).foldl pushTail []) := by
  have hnone : (([] : ByStep).map Prod.fst).Nodup := List.nodup_nil
  unfold appendCheckpointTail
  rw [tailMarks_rows (nodup_foldl_push pushTail _ hnone), entryOf_foldl_push, tailMarks_append,
    List.foldl_append]
  rfl

/-- Fingerprints that are spaced are all put at the end of the tail. -/
theorem foldl_pushTail {values marks : List Text}
    (h : Spaced maxRetainedLinesPerStep (values ++ marks)) :
    marks.foldl pushTail (lastN maxRetainedLinesPerStep values) =
      lastN maxRetainedLinesPerStep (values ++ marks) := by
  induction marks generalizing values with
  | nil => rw [List.foldl_nil, List.append_nil]
  | cons mark marks ih =>
      have hnew : mark ∉ lastN maxRetainedLinesPerStep values := h values mark marks rfl
      rw [List.foldl_cons, pushTail, if_neg hnew, lastN_lastN_append]
      have hnext : Spaced maxRetainedLinesPerStep (values ++ [mark] ++ marks) := by
        rwa [List.append_assoc]
      rw [ih hnext, List.append_assoc]
      rfl

/-! ### The seed of a leg -/

theorem seedRings_eq (limit : ℕ) (seed : List (Text × Text)) (step : Text) :
    seedRings limit seed step = (tailMarks seed step).foldl (seedRing limit) {} := by
  have hfold : ∀ (rings : Text → RingBuffer Text), seed.foldl (fun rings s =>
      Function.update rings s.1 (seedRing limit (rings s.1) s.2)) rings step =
        (tailMarks seed step).foldl (seedRing limit) (rings step) := by
    induction seed with
    | nil => exact fun _ => rfl
    | cons s seed ih =>
        intro rings
        rw [List.foldl_cons, ih, tailMarks_cons]
        by_cases hs : s.1 = step
        · subst hs
          rw [if_pos rfl, List.foldl_cons, Function.update_self]
        · rw [if_neg hs, Function.update_of_ne (Ne.symm hs)]
  exact hfold _

theorem seedRing_of_lt {limit : ℕ} {r : RingBuffer Text} {mark : Text}
    (h : r.order.length < limit) : seedRing limit r mark = (r.add limit mark).2 := by
  unfold seedRing RingBuffer.add
  split_ifs <;> rfl

/-- Distinct fingerprints that fit the window make a ring that holds them. -/
theorem holds_foldl_seedRing {limit : ℕ} {r : RingBuffer Text} {q marks : List Text}
    (h : r.Holds limit q) (hnodup : (q ++ marks).Nodup) (hlen : (q ++ marks).length ≤ limit) :
    (marks.foldl (seedRing limit) r).Holds limit (q ++ marks) := by
  induction marks generalizing q r with
  | nil =>
      rw [List.append_nil]
      exact h
  | cons mark marks ih =>
      have hsplit : q ++ mark :: marks = q ++ [mark] ++ marks := by simp
      have hroom : (q ++ [mark]).length ≤ limit := by
        rw [hsplit, List.length_append] at hlen
        omega
      have hnew : mark ∉ q := by
        rw [List.nodup_append] at hnodup
        exact fun hq => hnodup.2.2 mark hq mark List.mem_cons_self rfl
      have hlt : r.order.length < limit := by
        rw [← h.queue_length]
        rw [List.length_append, List.length_singleton] at hroom
        omega
      have hnext := h.add hnew
      rw [lastN_of_length_le hroom, ← seedRing_of_lt hlt] at hnext
      rw [hsplit] at hnodup hlen ⊢
      exact ih hnext hnodup hlen

theorem holds_seedRings {seed : List (Text × Text)} {step : Text}
    (hnodup : (tailMarks seed step).Nodup)
    (hlen : (tailMarks seed step).length ≤ maxRetainedLinesPerStep) :
    (seedRings maxRetainedLinesPerStep seed step).Holds maxRetainedLinesPerStep
      (tailMarks seed step) := by
  have hempty : ({} : RingBuffer Text).Holds maxRetainedLinesPerStep [] :=
    RingBuffer.holds_empty (by decide)
  rw [seedRings_eq]
  exact holds_foldl_seedRing hempty hnodup hlen

/-! ### The fingerprints a leg hands over -/

/-- The fingerprints of the rows that have a step. -/
def steppedMarks (delivered : List (Text × LedgerRow)) : List (Text × Text) :=
  (delivered.map (place fingerprint)).filter fun row => !row.1.isEmpty

theorem foldl_onAcceptedRecord (delivered : List (Text × LedgerRow)) (byStep : ByStep) :
    delivered.foldl (onAcceptedRecord fingerprint) byStep =
      (steppedMarks fingerprint delivered).foldl (fun byStep row =>
        assign row.1 (pushAccepted ((entryOf row.1 byStep).getD []) row.2) byStep) byStep := by
  induction delivered generalizing byStep with
  | nil => rfl
  | cons x delivered ih =>
      rw [List.foldl_cons, ih, steppedMarks, steppedMarks, List.map_cons, List.filter_cons]
      cases hstep : x.2.step with
      | none => simp [onAcceptedRecord, hstep, place, stepKey]
      | some step =>
          by_cases hempty : step = []
          · simp [onAcceptedRecord, hstep, place, stepKey, hempty]
          · simp [onAcceptedRecord, hstep, place, stepKey, hempty]

theorem tailMarks_steppedMarks (delivered : List (Text × LedgerRow)) {step : Text} (h : step ≠ []) :
    tailMarks (steppedMarks fingerprint delivered) step =
      marksOf (place fingerprint) step delivered := by
  induction delivered with
  | nil => rfl
  | cons x delivered ih =>
      rw [steppedMarks] at ih
      rw [steppedMarks, List.map_cons, List.filter_cons, marksOf_cons]
      by_cases hs : (place fingerprint x).1 = step
      · simp [hs, h, tailMarks_cons, ih]
      · split_ifs
        · rw [tailMarks_cons, if_neg hs, ih]
        · exact ih

theorem tailMarks_steppedMarks_nil (delivered : List (Text × LedgerRow)) :
    tailMarks (steppedMarks fingerprint delivered) [] = [] := by
  refine List.filterMap_eq_nil_iff.mpr ?_
  intro row hrow
  have hne := (List.mem_filter.mp hrow).2
  simp only [id]
  rw [if_neg]
  intro hnil
  simp [hnil] at hne

/-- A window cut back keeps the last fingerprints. -/
theorem lastN_foldl_pushAccepted (marks window : List Text) :
    lastN maxRetainedLinesPerStep (marks.foldl pushAccepted window) =
      lastN maxRetainedLinesPerStep (window ++ marks) := by
  induction marks generalizing window with
  | nil => rw [List.foldl_nil, List.append_nil]
  | cons mark marks ih =>
      rw [List.foldl_cons, ih, pushAccepted]
      have hsplit : window ++ mark :: marks = window ++ [mark] ++ marks := by simp
      rw [hsplit]
      split_ifs
      · rw [lastN_lastN_append]
      · rfl

theorem tailMarks_acceptedRows (delivered : List (Text × LedgerRow)) (step : Text) :
    tailMarks (acceptedRows fingerprint delivered) step =
      lastN maxRetainedLinesPerStep (tailMarks (steppedMarks fingerprint delivered) step) := by
  have hnone : (([] : ByStep).map Prod.fst).Nodup := List.nodup_nil
  have hnodup := nodup_foldl_push pushAccepted (steppedMarks fingerprint delivered) hnone
  have hentry := entryOf_foldl_push pushAccepted (steppedMarks fingerprint delivered) [] step
  unfold acceptedRows
  rw [foldl_onAcceptedRecord]
  generalize (steppedMarks fingerprint delivered).foldl (fun byStep row =>
    assign row.1 (pushAccepted ((entryOf row.1 byStep).getD []) row.2) byStep) [] = byStep
    at hnodup hentry ⊢
  rw [tailMarks_rows (by rwa [List.map_map]), entryOf_map]
  have hmap : ((entryOf step byStep).map (lastN maxRetainedLinesPerStep)).getD [] =
      lastN maxRetainedLinesPerStep ((entryOf step byStep).getD []) := by
    cases entryOf step byStep with
    | none => exact (lastN_of_length_le (Nat.zero_le _)).symm
    | some marks => rw [Option.map_some, Option.getD_some, Option.getD_some]
  rw [hmap, hentry]
  exact lastN_foldl_pushAccepted _ []

/-! ### One leg -/

/-- The queues a scan of the given rows leaves. -/
def scanQueues (rows : List (Text × LedgerRow)) : Text → List Text :=
  queues maxRetainedLinesPerStep (place fingerprint) (fun _ => []) rows

/-- The rows a scan delivers after it has read others. -/
def deliveredAfter (before rows : List (Text × LedgerRow)) : List (Text × LedgerRow) :=
  admitted maxRetainedLinesPerStep (place fingerprint) (scanQueues fingerprint before) rows

/-- The tail of a checkpoint is what the reader's windows held, but for rows without a step. -/
structure TailOf (tail : List (Text × Text)) (before : List (Text × LedgerRow)) : Prop where
  stepped : ∀ step, step ≠ [] → tailMarks tail step = scanQueues fingerprint before step
  stepless : tailMarks tail [] = []

/-- No row without a step is read again in a later leg. -/
def SteplessFresh (before leg : List (Text × LedgerRow)) : Prop :=
  ∀ x ∈ leg, stepKey x.2 = [] → fingerprint x.1 ∉ marksOf (place fingerprint) [] before

/-- The lines of a step that a leg reads fit one window, or those read again are all within a
window of their first occurrence. -/
def StepHandedOver (before leg : List (Text × LedgerRow)) (step : Text) : Prop :=
  (marksOf (place fingerprint) step leg).toFinset.card ≤ maxRetainedLinesPerStep ∨
    ∀ pre x post, leg = pre ++ x :: post → stepKey x.2 = step →
      fingerprint x.1 ∈ marksOf (place fingerprint) step before →
        (othersSince (fingerprint x.1) (marksOf (place fingerprint) step (before ++ pre))).card <
          maxRetainedLinesPerStep

/-- The condition on a corpus read in legs, the last of which leaves no tail. -/
def Resumable (before : List (Text × LedgerRow)) :
    List (List (Text × LedgerRow)) → List (Text × LedgerRow) → Prop
  | [], last => SteplessFresh fingerprint before last
  | leg :: legs, last =>
      SteplessFresh fingerprint before leg ∧
        (∀ step, step ≠ [] → StepHandedOver fingerprint before leg step) ∧
          Resumable (before ++ leg) legs last

section Leg

variable {fingerprint} {before leg : List (Text × LedgerRow)} {tail : List (Text × Text)}

theorem scanQueues_eq (rows : List (Text × LedgerRow)) (step : Text) :
    scanQueues fingerprint rows step =
      lastN maxRetainedLinesPerStep (marksOf (place fingerprint) step (deliveredAfter fingerprint [] rows)) :=
  queues_eq (fun _ => Nat.zero_le _) rows step

theorem spaced_delivered (rows : List (Text × LedgerRow)) (step : Text) :
    Spaced maxRetainedLinesPerStep
      (marksOf (place fingerprint) step (deliveredAfter fingerprint [] rows)) := by
  have hempty : ([] : List Text) = lastN maxRetainedLinesPerStep [] :=
    (lastN_of_length_le (Nat.zero_le _)).symm
  exact spaced_admitted step (spaced_of_nodup List.nodup_nil) hempty rows

theorem length_scanQueues_le (rows : List (Text × LedgerRow)) (step : Text) :
    (scanQueues fingerprint rows step).length ≤ maxRetainedLinesPerStep := by
  rw [scanQueues_eq, length_lastN]
  exact Nat.min_le_left _ _

theorem nodup_scanQueues (rows : List (Text × LedgerRow)) (step : Text) :
    (scanQueues fingerprint rows step).Nodup := by
  rw [scanQueues_eq]
  exact Spaced.nodup_lastN (a := []) (spaced_delivered rows step)

theorem scanQueues_append (before leg : List (Text × LedgerRow)) (step : Text) :
    scanQueues fingerprint (before ++ leg) step =
      lastN maxRetainedLinesPerStep (scanQueues fingerprint before step ++
        marksOf (place fingerprint) step (deliveredAfter fingerprint before leg)) := by
  rw [scanQueues, queues_append]
  exact queues_eq (length_scanQueues_le before) leg step

variable (fingerprint) in
/-- What a leg delivers after the windows of the legs before it is spaced with them. -/
theorem spaced_scanQueues_append (before leg : List (Text × LedgerRow)) (step : Text) :
    Spaced maxRetainedLinesPerStep (scanQueues fingerprint before step ++
      marksOf (place fingerprint) step (deliveredAfter fingerprint before leg)) :=
  spaced_admitted step (spaced_of_nodup (nodup_scanQueues before step))
    (lastN_of_length_le (length_scanQueues_le before step)).symm leg

theorem mem_of_mem_scanQueues {rows : List (Text × LedgerRow)} {step mark : Text}
    (h : mark ∈ scanQueues fingerprint rows step) : mark ∈ marksOf (place fingerprint) step rows := by
  rw [scanQueues_eq] at h
  exact (marksOf_admitted_sublist _ step rows).subset ((lastN_suffix _ _).subset h)

/-- The tail of a step fits the window and has no fingerprint twice. -/
theorem TailOf.seed (h : TailOf fingerprint tail before) (step : Text) :
    (tailMarks tail step).Nodup ∧ (tailMarks tail step).length ≤ maxRetainedLinesPerStep := by
  by_cases hs : step = []
  · rw [hs, h.stepless]
    exact ⟨List.nodup_nil, Nat.zero_le _⟩
  · rw [h.stepped step hs]
    exact ⟨nodup_scanQueues before step, length_scanQueues_le before step⟩

/-- A leg seeded with the tail delivers what the scan delivers there. -/
theorem TailOf.scan_eq (h : TailOf fingerprint tail before) (hfresh : SteplessFresh fingerprint before leg) :
    (scanRings maxRetainedLinesPerStep (place fingerprint)
      (seedRings maxRetainedLinesPerStep tail) leg).1 = deliveredAfter fingerprint before leg := by
  have hrings : ∀ step, (seedRings maxRetainedLinesPerStep tail step).Holds maxRetainedLinesPerStep
      (tailMarks tail step) := fun step => holds_seedRings (h.seed step).1 (h.seed step).2
  rw [(scanRings_eq hrings leg).1]
  -- the windows differ in the rows without a step, none of which comes back
  let old : Text → List Text := fun step => if step = [] then scanQueues fingerprint before [] else []
  have hq : ∀ step, scanQueues fingerprint before step =
      lastN maxRetainedLinesPerStep (old step ++ tailMarks tail step) := by
    intro step
    by_cases hs : step = []
    · simp only [old, if_pos hs]
      rw [hs, h.stepless, List.append_nil]
      exact (lastN_of_length_le (length_scanQueues_le before [])).symm
    · simp only [old, if_neg hs]
      rw [List.nil_append, h.stepped step hs]
      exact (lastN_of_length_le (length_scanQueues_le before step)).symm
  have hold : ∀ x ∈ leg, (place fingerprint x).2 ∉ old (place fingerprint x).1 := by
    intro x hx
    by_cases hs : (place fingerprint x).1 = []
    · simp only [old, if_pos hs]
      exact fun hmem => hfresh x hx hs (mem_of_mem_scanQueues hmem)
    · simp only [old, if_neg hs]
      exact List.not_mem_nil
  exact (admitted_forget hq (fun step => (h.seed step).2) hold).symm

/-- Fingerprints handed over in a leg that fits, or that are new, go to the end of the tail. -/
theorem foldl_pushTail_lastN {values marks : List Text}
    (hlen : values.length ≤ maxRetainedLinesPerStep)
    (hspaced : Spaced maxRetainedLinesPerStep
      (values ++ lastN maxRetainedLinesPerStep marks)) :
    (lastN maxRetainedLinesPerStep marks).foldl pushTail values =
      lastN maxRetainedLinesPerStep (values ++ marks) := by
  have hfold := foldl_pushTail hspaced
  rw [lastN_of_length_le hlen] at hfold
  rw [hfold]
  by_cases hfit : marks.length ≤ maxRetainedLinesPerStep
  · rw [lastN_of_length_le hfit]
  · have hfull : maxRetainedLinesPerStep ≤ (lastN maxRetainedLinesPerStep marks).length := by
      rw [length_lastN]
      omega
    rw [lastN_append_of_le values hfull, lastN_lastN, lastN_append_of_le values (by omega)]

/-- A row delivered within a window of its first occurrence was not delivered before. -/
theorem notMem_of_near {step mark : Text}
    (hnear : ∀ pre x post, leg = pre ++ x :: post → stepKey x.2 = step →
      fingerprint x.1 ∈ marksOf (place fingerprint) step before →
        (othersSince (fingerprint x.1) (marksOf (place fingerprint) step (before ++ pre))).card <
          maxRetainedLinesPerStep)
    (hmark : mark ∈ marksOf (place fingerprint) step (deliveredAfter fingerprint before leg)) :
    mark ∉ scanQueues fingerprint before step := by
  intro hheld
  have hbefore := mem_of_mem_scanQueues hheld
  obtain ⟨pre, x, post, hleg, hplace, hout⟩ := exists_split_of_mem_admitted hmark
  have hstep : stepKey x.2 = step := congrArg Prod.fst hplace
  have hfp : fingerprint x.1 = mark := congrArg Prod.snd hplace
  have hclose := hnear pre x post hleg hstep (hfp ▸ hbefore)
  rw [hfp] at hclose
  have hmem : mark ∈ marksOf (place fingerprint) step (before ++ pre) := by
    rw [marksOf_append]
    exact List.mem_append_left _ hbefore
  have hqueue := mem_queues_of_near hmem hclose
  rw [queues_append] at hqueue
  exact hout hqueue

/-- The tail after a leg is what the reader's windows hold after it. -/
theorem TailOf.next (h : TailOf fingerprint tail before)
    (hover : ∀ step, step ≠ [] → StepHandedOver fingerprint before leg step) :
    TailOf fingerprint
      (appendCheckpointTail tail (acceptedRows fingerprint (deliveredAfter fingerprint before leg)))
        (before ++ leg) := by
  have hseed : ∀ step, (tailMarks tail step).foldl pushTail [] = tailMarks tail step := by
    intro step
    have hspaced : Spaced maxRetainedLinesPerStep ([] ++ tailMarks tail step) :=
      spaced_of_nodup (h.seed step).1
    have hfold := foldl_pushTail hspaced
    rwa [lastN_of_length_le (Nat.zero_le _), List.nil_append,
      lastN_of_length_le (h.seed step).2] at hfold
  refine ⟨?_, ?_⟩
  · intro step hs
    rw [tailMarks_appendCheckpointTail, hseed, tailMarks_acceptedRows,
      tailMarks_steppedMarks fingerprint _ hs, h.stepped step hs]
    rw [foldl_pushTail_lastN (length_scanQueues_le before step), scanQueues_append]
    have hspaced := spaced_scanQueues_append fingerprint before leg step
    rcases hover step hs with hfit | hnear
    · have hlen : (marksOf (place fingerprint) step (deliveredAfter fingerprint before leg)).length ≤
          maxRetainedLinesPerStep :=
        length_marksOf_admitted_le (spaced_of_nodup (nodup_scanQueues before step))
          (lastN_of_length_le (length_scanQueues_le before step)).symm hfit
      rw [lastN_of_length_le hlen]
      exact hspaced
    · refine spaced_of_nodup (List.nodup_append.mpr ⟨nodup_scanQueues before step,
        hspaced.nodup_lastN, ?_⟩)
      intro mark hheld mark' hnew
      rintro rfl
      exact notMem_of_near hnear ((lastN_suffix _ _).subset hnew) hheld
  · rw [tailMarks_appendCheckpointTail, hseed, tailMarks_acceptedRows, tailMarks_steppedMarks_nil,
      h.stepless]
    rfl

end Leg

/-! ### The archives of a leg -/

/-- The rows that stand in a list of lines. -/
def corpusRows (lines : List Text) : List (Text × LedgerRow) :=
  (trimmedLines lines).filterMap fun line => (parseObject line).map (Prod.mk line)

theorem corpusRows_append (l m : List Text) :
    corpusRows parseObject (l ++ m) = corpusRows parseObject l ++ corpusRows parseObject m := by
  simp [corpusRows, trimmedLines]

/-- A leg filters no row out. -/
theorem unionRows_legOptions (files : Files) (point : ResumePoint) (stop : Option Text) :
    unionRows parseObject dateParse files (legOptions point stop) =
      corpusRows parseObject (unionLines dateParse files (legOptions point stop)) := by
  have hnames : namesStep (legOptions point stop) = fun _ => true := rfl
  have hkept : keptRow parseObject dateParse (legOptions point stop) =
      fun line => (parseObject line).map (Prod.mk line) := by
    funext line
    unfold keptRow
    cases parseObject line with
    | none => rfl
    | some row => rfl
  rw [unionRows, corpusRows, hnames, hkept, List.filter_true]

/-- The archives of a leg; there is a last one. -/
structure Leg where
  earlier : List Archive
  last : Archive

def Leg.archives (leg : Leg) : List Archive := leg.earlier ++ [leg.last]

def Leg.rows (leg : Leg) : List (Text × LedgerRow) :=
  corpusRows parseObject (leg.archives.flatMap Archive.lines)

/-- The archives have increasing names. -/
def Sorted (archives : List Archive) : Prop := archives.Pairwise fun a b => a.name < b.name

/-- Only the archives after the last one folded are read. -/
theorem filter_after {folded later : List Archive} (hsorted : Sorted (folded ++ later)) :
    (folded ++ later).filter (fun a =>
      (folded.getLast?.map Archive.name).all fun after => decide (after < a.name)) = later := by
  obtain ⟨hfolded, -, hcross⟩ := List.pairwise_append.mp hsorted
  rcases List.eq_nil_or_concat' folded with rfl | ⟨front, d, rfl⟩
  · simp
  · have hlast : (front ++ [d]).getLast?.map Archive.name = some d.name := by simp
    rw [hlast, List.filter_append, List.filter_eq_nil_iff.mpr, List.nil_append,
      List.filter_eq_self.mpr]
    · intro a ha
      simpa using hcross d (by simp) a ha
    · intro a ha
      rcases List.mem_append.mp ha with ha | ha
      · have hlt := (List.pairwise_append.mp hfolded).2.2 a ha d (by simp)
        simpa using le_of_lt hlt
      · rw [List.mem_singleton.mp ha]
        simp

theorem throughStop_eq {earlier rest : List Archive} {last : Archive}
    (h : ∀ a ∈ earlier, a.name ≠ last.name) :
    throughStop (some last.name) (earlier ++ last :: rest) = earlier ++ [last] := by
  induction earlier with
  | nil => simp [throughStop]
  | cons a earlier ih =>
      have hne : last.name ≠ a.name := (h a List.mem_cons_self).symm
      rw [List.cons_append, throughStop, if_neg (by simpa using hne),
        ih fun b hb => h b (List.mem_cons_of_mem a hb), List.cons_append]

theorem tailOf_start : TailOf fingerprint [] [] := ⟨fun _ _ => rfl, rfl⟩

section Legs

variable {files : Files} {folded rest : List Archive} {point : ResumePoint}

/-- The archives a leg may open. -/
theorem chosenRotations_leg {later : List Archive} (harch : files.archives = folded ++ later)
    (hsorted : Sorted files.archives) (hpoint : point.lastArchive = folded.getLast?.map Archive.name)
    (stop : Option Text) :
    chosenRotations dateParse files (legOptions point stop) = later := by
  have hselect : (legOptions point stop).selectRotation = fun _ => true := rfl
  have hwindow : ∀ a, (!rotationBeforeWindow dateParse a
      (sinceMs dateParse (legOptions point stop))) = true := fun _ => rfl
  have hafter : (legOptions point stop).afterRotation = folded.getLast?.map Archive.name := hpoint
  rw [harch] at hsorted
  unfold chosenRotations
  simp only [hselect, hwindow, List.filter_true, hafter, harch]
  exact filter_after hsorted

theorem unionLines_stop {leg : Leg} (harch : files.archives = folded ++ (leg.archives ++ rest))
    (hsorted : Sorted files.archives) (hpoint : point.lastArchive = folded.getLast?.map Archive.name) :
    unionLines dateParse files (legOptions point (some leg.last.name)) =
      leg.archives.flatMap Archive.lines := by
  have hsplit : leg.archives ++ rest = leg.earlier ++ leg.last :: rest := by simp [Leg.archives]
  have hne : ∀ a ∈ leg.earlier, a.name ≠ leg.last.name := by
    intro a ha
    rw [harch, hsplit] at hsorted
    have hleg := (List.pairwise_append.mp hsorted).2.1
    exact ne_of_lt ((List.pairwise_append.mp hleg).2.2 a ha leg.last (by simp))
  unfold unionLines
  rw [chosenRotations_leg dateParse harch hsorted hpoint]
  have hstops : stops (legOptions point (some leg.last.name)).stopAfterRotation
      (leg.archives ++ rest) = true := by
    rw [stops, List.any_eq_true]
    exact ⟨leg.last, by simp [Leg.archives], by simp [legOptions]⟩
  have hthrough : throughStop (legOptions point (some leg.last.name)).stopAfterRotation
      (leg.archives ++ rest) = leg.archives := by
    rw [hsplit]
    exact throughStop_eq hne
  simp only [hstops, if_true, hthrough]

theorem unionLines_end (harch : files.archives = folded ++ rest)
    (hsorted : Sorted files.archives) (hpoint : point.lastArchive = folded.getLast?.map Archive.name) :
    unionLines dateParse files (legOptions point none) =
      rest.flatMap Archive.lines ++ files.live.getD [] := by
  unfold unionLines
  rw [chosenRotations_leg dateParse harch hsorted hpoint]
  have hstops : stops (legOptions point none).stopAfterRotation rest = false := stops_none rest
  have hthrough : throughStop (legOptions point none).stopAfterRotation rest = rest :=
    throughStop_none rest
  simp only [hstops, if_false, hthrough, Bool.false_eq_true]

/-! ### All legs -/

variable {parseObject dateParse fingerprint}

/-- A leg after others delivers what the scan delivers there. -/
theorem scanLeg_eq {stop : Option Text} {before leg : List (Text × LedgerRow)}
    (htail : TailOf fingerprint point.tail before) (hfresh : SteplessFresh fingerprint before leg)
    (hrows : corpusRows parseObject (unionLines dateParse files (legOptions point stop)) = leg) :
    scanLeg parseObject dateParse fingerprint files point stop =
      deliveredAfter fingerprint before leg := by
  unfold scanLeg openLedgerUnion
  simp only [unionRows_legOptions, hrows]
  exact htail.scan_eq hfresh

theorem deliveredAfter_append (before leg later : List (Text × LedgerRow)) :
    deliveredAfter fingerprint before (leg ++ later) =
      deliveredAfter fingerprint before leg ++ deliveredAfter fingerprint (before ++ leg) later := by
  unfold deliveredAfter scanQueues
  rw [admitted_append, queues_append]

/-- The legs from any point on whose tail is what the reader's windows held. -/
theorem scanLegs_eq {legs : List Leg} {before : List (Text × LedgerRow)}
    (harch : files.archives = folded ++ (legs.flatMap Leg.archives ++ rest))
    (hsorted : Sorted files.archives) (hpoint : point.lastArchive = folded.getLast?.map Archive.name)
    (htail : TailOf fingerprint point.tail before)
    (hres : Resumable fingerprint before (legs.map (Leg.rows parseObject))
      (corpusRows parseObject (rest.flatMap Archive.lines ++ files.live.getD []))) :
    scanLegs parseObject dateParse fingerprint files point (legs.map fun leg => leg.last.name) =
      deliveredAfter fingerprint before ((legs.map (Leg.rows parseObject)).flatten ++
        corpusRows parseObject (rest.flatMap Archive.lines ++ files.live.getD [])) := by
  induction legs generalizing folded point before with
  | nil => exact scanLeg_eq htail hres (by rw [unionLines_end dateParse harch hsorted hpoint]; rfl)
  | cons leg legs ih =>
      obtain ⟨hfresh, hover, hlater⟩ := hres
      have harch' : files.archives =
          folded ++ (leg.archives ++ (legs.flatMap Leg.archives ++ rest)) := by
        rw [harch, List.flatMap_cons, List.append_assoc]
      have hleg : scanLeg parseObject dateParse fingerprint files point (some leg.last.name) =
          deliveredAfter fingerprint before (leg.rows parseObject) :=
        scanLeg_eq htail hfresh (by rw [unionLines_stop dateParse harch' hsorted hpoint]; rfl)
      have hnext : (resumeAfter fingerprint point leg.last.name
          (deliveredAfter fingerprint before (leg.rows parseObject))).lastArchive =
            (folded ++ leg.archives).getLast?.map Archive.name := by
        simp [resumeAfter, Leg.archives]
      have hlegs := ih (by rw [harch', List.append_assoc]) hnext (htail.next hover) hlater
      rw [List.map_cons, scanLegs, hleg, hlegs, ← deliveredAfter_append, List.map_cons,
        List.flatten_cons, List.append_assoc]

end Legs

/-- A corpus with the archives after which the legs stop. -/
structure SplitCorpus where
  legs : List Leg
  rest : List Archive := []
  live : Option (List Text) := none
  sorted : Sorted (legs.flatMap Leg.archives ++ rest)

def SplitCorpus.files (c : SplitCorpus) : Files :=
  { archives := c.legs.flatMap Leg.archives ++ c.rest, live := c.live }

def SplitCorpus.stops (c : SplitCorpus) : List Text := c.legs.map fun leg => leg.last.name

/-- The rows of each leg but the last, and those of the last. -/
def SplitCorpus.legRows (parseObject : Text → Option LedgerRow) (c : SplitCorpus) :
    List (List (Text × LedgerRow)) := c.legs.map (Leg.rows parseObject)

def SplitCorpus.lastRows (parseObject : Text → Option LedgerRow) (c : SplitCorpus) :
    List (Text × LedgerRow) :=
  corpusRows parseObject (c.rest.flatMap Archive.lines ++ c.live.getD [])

theorem SplitCorpus.scanAll_eq (c : SplitCorpus) :
    scanAll parseObject dateParse fingerprint c.files =
      deliveredAfter fingerprint [] ((c.legRows parseObject).flatten ++ c.lastRows parseObject) := by
  have harch : c.files.archives = [] ++ (c.legs.flatMap Leg.archives ++ c.rest) := rfl
  refine scanLeg_eq (tailOf_start fingerprint) (fun _ _ _ => List.not_mem_nil) ?_
  rw [unionLines_end dateParse harch c.sorted rfl]
  simp only [SplitCorpus.legRows, SplitCorpus.lastRows, SplitCorpus.files, corpusRows_append,
    List.flatMap_append, List.append_assoc]
  congr 1
  induction c.legs with
  | nil => rfl
  | cons leg legs ih =>
      rw [List.flatMap_cons, List.flatMap_append, corpusRows_append, ih]
      rfl

/-- **The legs deliver together what one scan of the corpus delivers**, in the same order. -/
theorem resumed_scan_eq (parseObject : Text → Option LedgerRow) (dateParse : Text → Option ℤ)
    (fingerprint : Text → Text) (c : SplitCorpus)
    (h : Resumable fingerprint [] (c.legRows parseObject) (c.lastRows parseObject)) :
    scanLegs parseObject dateParse fingerprint c.files {} c.stops =
      scanAll parseObject dateParse fingerprint c.files := by
  have harch : c.files.archives = [] ++ (c.legs.flatMap Leg.archives ++ c.rest) := rfl
  rw [c.scanAll_eq]
  exact scanLegs_eq harch c.sorted rfl (tailOf_start fingerprint) h

def liveLine : Text := "\x7b\"step\":\"run.end\"\x7d".toList

/-- Two archives with the same line, each a leg of its own, and another line in the live file. -/
def twice (line : Text) : SplitCorpus :=
  { legs := [
      { earlier := [], last := { name := "ledger.2026-10-26T00-00-00-000Z.ndjson".toList, lines := [line] } },
      { earlier := [], last := { name := "ledger.2026-10-27T00-00-00-000Z.ndjson".toList, lines := [line] } }]
    live := some [liveLine]
    sorted := by
      have hlt : "ledger.2026-10-26T00-00-00-000Z.ndjson".toList <
          "ledger.2026-10-27T00-00-00-000Z.ndjson".toList := by decide +kernel
      simpa [Sorted, Leg.archives] using hlt }

def stepLine : Text := "\x7b\"step\":\"run.start\"\x7d".toList

def steplessLine : Text := "\x7b\"a\":1\x7d".toList

def parseStepLine (line : Text) : Option LedgerRow :=
  if line = stepLine then some { step := some "run.start".toList }
  else if line = liveLine then some { step := some "run.end".toList }
  else if line = steplessLine then some {}
  else none

theorem resumed_scan_eq_twice :
    scanLegs parseStepLine (fun _ => none) id (twice stepLine).files {} (twice stepLine).stops =
      scanAll parseStepLine (fun _ => none) id (twice stepLine).files := by
  refine resumed_scan_eq parseStepLine (fun _ => none) id (twice stepLine) ?_
  have hlegs : (twice stepLine).legRows parseStepLine =
      [[(stepLine, { step := some "run.start".toList })],
        [(stepLine, { step := some "run.start".toList })]] := by
    decide +kernel
  have hlast : (twice stepLine).lastRows parseStepLine = [(liveLine, { step := some "run.end".toList })] := by
    decide +kernel
  rw [hlegs, hlast]
  have hfresh : ∀ before, SteplessFresh id before
      [(stepLine, { step := some "run.start".toList })] := by
    intro before x hx hempty
    rw [List.mem_singleton.mp hx] at hempty
    exact absurd hempty (by decide +kernel)
  have hlive : ∀ before, SteplessFresh id before [(liveLine, { step := some "run.end".toList })] := by
    intro before x hx hempty
    rw [List.mem_singleton.mp hx] at hempty
    exact absurd hempty (by decide +kernel)
  have hover : ∀ before step, StepHandedOver id before
      [(stepLine, { step := some "run.start".toList })] step := by
    intro before step
    refine .inl ((List.toFinset_card_le _).trans ?_)
    exact (List.length_filterMap_le _ _).trans (by decide)
  exact ⟨hfresh _, fun step _ => hover _ step, hfresh _, fun step _ => hover _ step, hlive _⟩

/-- A row without a step that stands in two legs is delivered by both; one scan delivers it once. -/
theorem stepless_row_delivered_twice :
    scanLegs parseStepLine (fun _ => none) id (twice steplessLine).files {} (twice steplessLine).stops =
        [(steplessLine, {}), (steplessLine, {}), (liveLine, { step := some "run.end".toList })] ∧
      scanAll parseStepLine (fun _ => none) id (twice steplessLine).files =
        [(steplessLine, {}), (liveLine, { step := some "run.end".toList })] := by
  decide +kernel

end Remudero.Corpus
