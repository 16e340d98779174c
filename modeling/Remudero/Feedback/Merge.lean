import Remudero.Lib.Json
import Remudero.Lib.Record
import Remudero.Lib.Text
import Remudero.Lib.Transition

/-! # Landing a feedback record

`mergeFeedbackRecord` of `lib/feedback-record-merge.ts`: a local copy of a feedback record is landed
over the upstream one, kept out, or refused, by the rank of its status and by the transition
metadata it carries.  The YAML package is a parameter; a record is the list of its fields.

The rank is the position in one list, while the lifecycle that the refusal text names is a partial
order, and a local copy of a later rank lands without a look at the metadata.  `mergeRecords_cases`
says once what a merge of two records can do; `landing_progress_iff` reads off when a single landing
keeps the progress of the record, and `landings_progress` is the statement over runs. -/

namespace Remudero.Feedback

open Remudero.Lib

/-! ### Statuses -/

inductive FeedbackRecordStatus
  | new
  | grilling
  | proposed
  | accepted
  | rejected
  | answered
deriving DecidableEq

namespace FeedbackRecordStatus

def text : FeedbackRecordStatus → Text
  | new => "new".toList
  | grilling => "grilling".toList
  | proposed => "proposed".toList
  | accepted => "accepted".toList
  | rejected => "rejected".toList
  | answered => "answered".toList

/-- `FEEDBACK_RECORD_STATUSES`. -/
def all : List FeedbackRecordStatus := [new, grilling, proposed, accepted, rejected, answered]

/-- `STATUS_RANK`: the position in the list. -/
def rank : FeedbackRecordStatus → ℕ
  | new => 0
  | grilling => 1
  | proposed => 2
  | accepted => 3
  | rejected => 4
  | answered => 5

def ofText (t : Text) : Option FeedbackRecordStatus := all.find? fun s => s.text = t

/-- The lifecycle of the docs: `new < grilling < proposed < accepted/rejected` and
`grilling < answered`, with every status at or before itself. -/
def AtOrBefore : FeedbackRecordStatus → FeedbackRecordStatus → Prop
  | new, _ => True
  | grilling, t => t ≠ new
  | proposed, t => t = proposed ∨ t = accepted ∨ t = rejected
  | s, t => t = s

instance : ∀ s t, Decidable (AtOrBefore s t)
  | new, _ => inferInstanceAs (Decidable True)
  | grilling, t => inferInstanceAs (Decidable (t ≠ new))
  | proposed, t => inferInstanceAs (Decidable (t = proposed ∨ t = accepted ∨ t = rejected))
  | accepted, t => inferInstanceAs (Decidable (t = accepted))
  | rejected, t => inferInstanceAs (Decidable (t = rejected))
  | answered, t => inferInstanceAs (Decidable (t = answered))

theorem AtOrBefore.refl (s : FeedbackRecordStatus) : AtOrBefore s s := by
  cases s <;> simp [AtOrBefore]

theorem AtOrBefore.trans {s t u : FeedbackRecordStatus} (h₁ : AtOrBefore s t)
    (h₂ : AtOrBefore t u) : AtOrBefore s u := by
  cases s <;> cases t <;> cases u <;> simp_all [AtOrBefore]

theorem eq_of_rank_eq {s t : FeedbackRecordStatus} (h : s.rank = t.rank) : s = t := by
  cases s <;> cases t <;> simp_all [rank]

end FeedbackRecordStatus

/-! ### Records -/

/-- What a YAML document parses to: an object, or another value as `JSON.stringify` shows it. -/
inductive Document (V : Type*)
  | mapping (fields : List (Text × V))
  | other (shown : Text)

/-- The YAML package, on values `V` up to `isDeepStrictEqual`, and the check of a revision that
measured evidence makes. -/
structure Yaml (V : Type*) where
  null : V
  /-- The text of a string value. -/
  textOf : V → Option Text
  truthy : V → Bool
  /-- `JSON.stringify`. -/
  json : V → Text
  parse : Text → Except Text (Document V)
  /-- The reason to refuse a new `evidence_coverage_revision`. -/
  validateEvidenceRevision : Option Text → Text → Option Text

abbrev RecordShape (V : Type*) := List (Text × V)

def causalFields : List Text :=
  ["submission_key".toList, "thread_id".toList, "reply_to".toList]

def HISTORY_FIELDS : List Text :=
  ["answered_by".toList, "reply_to".toList, "thread_id".toList, "submission_key".toList,
    "proposal_pr".toList, "summary".toList, "expansion".toList]

/-- The history fields besides the causal ones. -/
def acquiredFields : List Text :=
  ["answered_by".toList, "proposal_pr".toList, "summary".toList, "expansion".toList]

inductive MergeDecision (V : Type*)
  /-- Stage the local bytes, or the serialization of the record that is given. -/
  | takeLocal (content : Option (RecordShape V))
  | keepUpstream
  | refuse (reason : Text)
deriving DecidableEq

variable {V : Type*} [DecidableEq V] (y : Yaml V)

def parseRecord (bytes : Text) : Except Text (RecordShape V) :=
  match y.parse bytes with
  | .error message => .error ("invalid YAML (".toList ++ message ++ ")".toList)
  | .ok (.mapping r) => .ok r
  | .ok (.other shown) =>
      .error ("YAML parsed to a non-mapping value (".toList ++ shown ++ ")".toList)

/-- The value of a field that is neither undefined nor null. -/
def valueOf (r : RecordShape V) (field : Text) : Option V :=
  (entryOf field r).filter fun v => v ≠ y.null

def hasHistory (r : RecordShape V) (field : Text) : Bool := (valueOf y r field).isSome

def statusOf (r : RecordShape V) : Option FeedbackRecordStatus :=
  ((entryOf "status".toList r).bind y.textOf).bind FeedbackRecordStatus.ofText

/-! ### The merge -/

/-- `evidence_coverage_revision` of a document, undefined where it cannot be read. -/
def revisionOf (bytes : Text) : Option V :=
  match y.parse bytes with
  | .ok (.mapping r) => entryOf "evidence_coverage_revision".toList r
  | _ => none

/-- The local copy carries a revision that upstream does not. -/
def newRevision (upstream : Option Text) (localBytes : Text) : Bool :=
  match revisionOf y localBytes with
  | none => false
  | some v => y.truthy v && upstream.bind (revisionOf y) ≠ some v

/-- Set the fields of `fs` that upstream has, as far as `keep` wants them. -/
def retain (keep : V → Bool) (upstream : RecordShape V) (fs : List Text) (r : RecordShape V) :
    RecordShape V :=
  fs.foldl (fun acc f =>
    match (entryOf f upstream).filter keep with
    | some v => assign f v acc
    | none => acc) r

/-- The local record with what a landing never takes from upstream. -/
def retained (upstream localRecord : RecordShape V) : RecordShape V :=
  retain (fun _ => true) upstream ["evidence_coverage_last_reopened".toList]
    (retain (fun v => v ≠ y.null) upstream ["contribution".toList]
      (retain (fun v => v ≠ y.null) upstream causalFields localRecord))

def takeLocal (upstream localRecord : RecordShape V) : MergeDecision V :=
  if retained y upstream localRecord = localRecord then .takeLocal none
  else .takeLocal (some (retained y upstream localRecord))

/-- The first causal field that both sides set, to different values. -/
def changedIdentity (upstream localRecord : RecordShape V) : Option Text :=
  causalFields.find? fun f =>
    hasHistory y upstream f && hasHistory y localRecord f &&
      entryOf f upstream ≠ entryOf f localRecord

def shownStatus (r : RecordShape V) : Text :=
  match entryOf "status".toList r with
  | none => "undefined".toList
  | some v => y.json v

def unknownStatusReason (upstream localRecord : RecordShape V) : Text :=
  "unrecognised or missing §7B status (upstream: ".toList ++ shownStatus y upstream ++
    ", local: ".toList ++ shownStatus y localRecord ++
    ") — cannot establish lifecycle order".toList

def earlierReason (su sl : FeedbackRecordStatus) : Text :=
  "local status \"".toList ++ sl.text ++ "\" sits earlier than upstream's \"".toList ++ su.text ++
    ("\" in the §7B lifecycle (new < grilling < proposed < accepted/rejected, " ++
      "grilling < answered) — refusing to move the record backward").toList

def droppedReason (field : Text) : Text :=
  "local record is missing \"".toList ++ field ++
    "\", which upstream already carries — refusing to drop transition metadata".toList

/-- The first history field that upstream has and the local record lacks. -/
def dropped (upstream localRecord : RecordShape V) : Option Text :=
  HISTORY_FIELDS.find? fun f => hasHistory y upstream f && !hasHistory y localRecord f

def gained (upstream localRecord : RecordShape V) : Bool :=
  HISTORY_FIELDS.any fun f => hasHistory y localRecord f && !hasHistory y upstream f

/-- The merge of two parsed records. -/
def mergeRecords (upstream localRecord : RecordShape V) : MergeDecision V :=
  match changedIdentity y upstream localRecord with
  | some field =>
      .refuse ("immutable feedback identity \"".toList ++ field ++ "\" changed".toList)
  | none =>
      match statusOf y upstream, statusOf y localRecord with
      | some su, some sl =>
          if sl.rank < su.rank then .refuse (earlierReason su sl)
          else if sl.rank = su.rank then
            match dropped y upstream localRecord with
            | some field => .refuse (droppedReason field)
            | none =>
                if gained y upstream localRecord then takeLocal y upstream localRecord
                else .keepUpstream
          else takeLocal y upstream localRecord
      | _, _ => .refuse (unknownStatusReason y upstream localRecord)

/-- The reasons of the sides that do not parse, joined. -/
def unreadableReason (up loc : Except Text (RecordShape V)) : Text :=
  "refusing to guess which copy is authoritative — ".toList ++
    match up, loc with
    | .error e, .error e' => "upstream: ".toList ++ e ++ "; ".toList ++ "local: ".toList ++ e'
    | .error e, .ok _ => "upstream: ".toList ++ e
    | .ok _, .error e' => "local: ".toList ++ e'
    | .ok _, .ok _ => []

def mergeFeedbackRecord (upstreamBytes : Option Text) (localBytes : Text) : MergeDecision V :=
  if newRevision y upstreamBytes localBytes then
    match y.validateEvidenceRevision upstreamBytes localBytes with
    | some reason => .refuse reason
    | none => .takeLocal none
  else
    match upstreamBytes with
    | none => .takeLocal none
    | some upstream =>
        if upstream = localBytes then .keepUpstream
        else
          match parseRecord y upstream, parseRecord y localBytes with
          | .ok u, .ok l => mergeRecords y u l
          | up, loc => .refuse (unreadableReason up loc)

/-- What a merge of two records can do. -/
theorem mergeRecords_cases (u l : RecordShape V) :
    (∃ reason, mergeRecords y u l = .refuse reason) ∨ mergeRecords y u l = .keepUpstream ∨
    (mergeRecords y u l = takeLocal y u l ∧ changedIdentity y u l = none ∧
      ∃ su sl, statusOf y u = some su ∧ statusOf y l = some sl ∧
        ((su = sl ∧ dropped y u l = none) ∨ su.rank < sl.rank)) := by
  unfold mergeRecords
  cases hid : changedIdentity y u l with
  | some field => exact .inl ⟨_, rfl⟩
  | none =>
      cases hu : statusOf y u with
      | none => exact .inl ⟨_, rfl⟩
      | some su =>
          cases hl : statusOf y l with
          | none => exact .inl ⟨_, rfl⟩
          | some sl =>
              by_cases hlt : sl.rank < su.rank
              · exact .inl ⟨earlierReason su sl, by simp only [hlt, if_true]⟩
              · by_cases heq : sl.rank = su.rank
                · cases hd : dropped y u l with
                  | some field => exact .inl ⟨droppedReason field, by simp [heq]⟩
                  | none =>
                      have hs : su = sl := FeedbackRecordStatus.eq_of_rank_eq heq.symm
                      by_cases hg : gained y u l
                      · exact .inr (.inr ⟨by simp [heq, hg], rfl, su, sl, rfl, rfl, .inl ⟨hs, rfl⟩⟩)
                      · exact .inr (.inl (by simp [heq, hg]))
                · have hgt : su.rank < sl.rank := by omega
                  exact .inr (.inr ⟨by simp [hlt, heq], rfl, su, sl, rfl, rfl, .inr hgt⟩)

/-- A later rank lands. -/
theorem mergeRecords_of_later {u l : RecordShape V} {su sl : FeedbackRecordStatus}
    (hid : changedIdentity y u l = none) (hu : statusOf y u = some su)
    (hl : statusOf y l = some sl) (hlt : su.rank < sl.rank) :
    mergeRecords y u l = takeLocal y u l := by
  have h1 : ¬ sl.rank < su.rank := by omega
  have h2 : ¬ sl.rank = su.rank := by omega
  simp only [mergeRecords, hid, hu, hl, h1, h2, if_false]

theorem mergeRecords_of_earlier {u l : RecordShape V} {su sl : FeedbackRecordStatus}
    (hid : changedIdentity y u l = none) (hu : statusOf y u = some su)
    (hl : statusOf y l = some sl) (hlt : sl.rank < su.rank) :
    mergeRecords y u l = .refuse (earlierReason su sl) := by
  simp only [mergeRecords, hid, hu, hl, hlt, if_true]

theorem takeLocal_ne (u l : RecordShape V) :
    takeLocal y u l ≠ .keepUpstream ∧ ∀ reason, takeLocal y u l ≠ .refuse reason := by
  unfold takeLocal
  split <;> simp

/-! ### The record that lands -/

section Retain

omit [DecidableEq V]

variable {keep : V → Bool} {u : RecordShape V} {f g : Text} {fs : List Text} {v : V}

theorem retain_cons_of_none (h : (entryOf f u).filter keep = none) (r : RecordShape V) :
    retain keep u (f :: fs) r = retain keep u fs r := by
  simp only [retain, List.foldl_cons, h]

theorem retain_cons_of_some (h : (entryOf f u).filter keep = some v) (r : RecordShape V) :
    retain keep u (f :: fs) r = retain keep u fs (assign f v r) := by
  simp only [retain, List.foldl_cons, h]

theorem entryOf_retain_of_notMem (hg : g ∉ fs) (r : RecordShape V) :
    entryOf g (retain keep u fs r) = entryOf g r := by
  induction fs generalizing r with
  | nil => rfl
  | cons f fs ih =>
      rw [List.mem_cons, not_or] at hg
      cases hf : (entryOf f u).filter keep with
      | none => rw [retain_cons_of_none hf, ih hg.2]
      | some v => rw [retain_cons_of_some hf, ih hg.2, entryOf_assign_of_ne v r hg.1]

/-- A field that has upstream's value keeps it. -/
theorem entryOf_retain_of_eq (hu : entryOf g u = some v) {r : RecordShape V}
    (hr : entryOf g r = some v) : entryOf g (retain keep u fs r) = some v := by
  induction fs generalizing r with
  | nil => exact hr
  | cons f fs ih =>
      cases hf : (entryOf f u).filter keep with
      | none => rw [retain_cons_of_none hf, ih hr]
      | some w =>
          rw [retain_cons_of_some hf]
          apply ih
          by_cases hg : g = f
          · subst hg
            have hw := (Option.filter_eq_some_iff.mp hf).1
            rw [entryOf_assign_self, ← hw, hu]
          · rw [entryOf_assign_of_ne w r hg, hr]

/-- A field that upstream has and `keep` wants gets upstream's value. -/
theorem entryOf_retain_of_mem (hu : entryOf g u = some v) (hv : keep v = true) (hg : g ∈ fs)
    (r : RecordShape V) : entryOf g (retain keep u fs r) = some v := by
  induction fs generalizing r with
  | nil => cases hg
  | cons f fs ih =>
      by_cases hgf : g = f
      · subst hgf
        have hf : (entryOf g u).filter keep = some v := by simp [hu, hv]
        rw [retain_cons_of_some hf]
        exact entryOf_retain_of_eq hu (entryOf_assign_self g v r)
      · have hmem : g ∈ fs := (List.mem_cons.mp hg).resolve_left hgf
        cases hf : (entryOf f u).filter keep with
        | none => rw [retain_cons_of_none hf, ih hmem]
        | some w => rw [retain_cons_of_some hf, ih hmem]

end Retain

/-- A field that no landing retains is the local one. -/
theorem entryOf_retained_of_notMem {f : Text} (u l : RecordShape V)
    (hf : f ∉ "evidence_coverage_last_reopened".toList :: "contribution".toList :: causalFields) :
    entryOf f (retained y u l) = entryOf f l := by
  simp only [List.mem_cons, not_or] at hf
  obtain ⟨h1, h2, h3⟩ := hf
  unfold retained
  rw [entryOf_retain_of_notMem (by simpa using h1), entryOf_retain_of_notMem (by simpa using h2),
    entryOf_retain_of_notMem h3]

theorem valueOf_retained_causal {f : Text} {v : V} {u : RecordShape V} (l : RecordShape V)
    (hf : f ∈ causalFields) (hu : valueOf y u f = some v) :
    valueOf y (retained y u l) f = some v := by
  obtain ⟨hget, hne⟩ := Option.filter_eq_some_iff.mp hu
  have hr : entryOf f (retained y u l) = some v :=
    entryOf_retain_of_eq hget (entryOf_retain_of_eq hget (entryOf_retain_of_mem hget hne hf l))
  rw [valueOf, hr, Option.filter_eq_some_iff]
  exact ⟨rfl, hne⟩

theorem statusOf_retained (u l : RecordShape V) :
    statusOf y (retained y u l) = statusOf y l := by
  rw [statusOf, entryOf_retained_of_notMem y u l (by decide), ← statusOf]

theorem hasHistory_retained_acquired {f : Text} (u l : RecordShape V) (hf : f ∈ acquiredFields) :
    hasHistory y (retained y u l) f = hasHistory y l f := by
  have hnot : ∀ g ∈ acquiredFields,
      g ∉ "evidence_coverage_last_reopened".toList :: "contribution".toList :: causalFields := by
    decide
  rw [hasHistory, valueOf, entryOf_retained_of_notMem y u l (hnot f hf), ← valueOf, ← hasHistory]

/-! ### Progress -/

/-- What a landing must not lose: the position in the lifecycle, the causal identity, and that the
acquired fields are set. -/
structure Progress (r r' : RecordShape V) : Prop where
  forward : ∀ s, statusOf y r = some s → ∃ s', statusOf y r' = some s' ∧ s.AtOrBefore s'
  identity : ∀ f ∈ causalFields, ∀ v, valueOf y r f = some v → valueOf y r' f = some v
  acquired : ∀ f ∈ acquiredFields, hasHistory y r f → hasHistory y r' f

theorem Progress.refl (r : RecordShape V) : Progress y r r where
  forward s hs := ⟨s, hs, .refl s⟩
  identity _ _ _ h := h
  acquired _ _ h := h

variable {y} in
theorem Progress.trans {r r' r'' : RecordShape V} (h₁ : Progress y r r') (h₂ : Progress y r' r'') :
    Progress y r r'' where
  forward s hs := by
    obtain ⟨s', hs', hle⟩ := h₁.forward s hs
    obtain ⟨s'', hs'', hle'⟩ := h₂.forward s' hs'
    exact ⟨s'', hs'', hle.trans hle'⟩
  identity f hf v hv := h₂.identity f hf v (h₁.identity f hf v hv)
  acquired f hf h := h₂.acquired f hf (h₁.acquired f hf h)

/-- A local record of a later rank and the same identity is later in the lifecycle, and sets the
acquired fields that upstream has. -/
def Orderly (u l : RecordShape V) : Prop :=
  changedIdentity y u l = none → ∀ su sl, statusOf y u = some su → statusOf y l = some sl →
    su.rank < sl.rank → su.AtOrBefore sl ∧ ∀ f ∈ acquiredFields, hasHistory y u f → hasHistory y l f

/-- Without a dropped field every history field of upstream is there. -/
theorem hasHistory_of_dropped {u l : RecordShape V} (h : dropped y u l = none) {f : Text}
    (hf : f ∈ HISTORY_FIELDS) (hu : hasHistory y u f) : hasHistory y l f := by
  have hnone := List.find?_eq_none.mp h f hf
  simpa [hu] using hnone

/-- The record that lands keeps the progress of upstream exactly when the local one is orderly. -/
theorem progress_retained_iff {u l : RecordShape V} {su sl : FeedbackRecordStatus}
    (hu : statusOf y u = some su) (hl : statusOf y l = some sl) :
    Progress y u (retained y u l) ↔
      su.AtOrBefore sl ∧ ∀ f ∈ acquiredFields, hasHistory y u f → hasHistory y l f := by
  constructor
  · intro h
    obtain ⟨s', hs', hle⟩ := h.forward su hu
    rw [statusOf_retained, hl, Option.some.injEq] at hs'
    refine ⟨hs' ▸ hle, ?_⟩
    intro f hf huf
    rw [← hasHistory_retained_acquired y u l hf]
    exact h.acquired f hf huf
  · rintro ⟨hle, hacq⟩
    refine ⟨?_, fun f hf v hv => valueOf_retained_causal y l hf hv, ?_⟩
    · intro s hs
      rw [hu, Option.some.injEq] at hs
      exact ⟨sl, by rw [statusOf_retained, hl], hs ▸ hle⟩
    · intro f hf huf
      rw [hasHistory_retained_acquired y u l hf]
      exact hacq f hf huf

theorem progress_retained_of_same {u l : RecordShape V} {s : FeedbackRecordStatus}
    (hu : statusOf y u = some s) (hl : statusOf y l = some s) (hd : dropped y u l = none) :
    Progress y u (retained y u l) := by
  have hsub : acquiredFields ⊆ HISTORY_FIELDS := by decide
  refine ⟨?_, fun f hf v hv => valueOf_retained_causal y l hf hv, ?_⟩
  · intro t ht
    rw [hu, Option.some.injEq] at ht
    exact ⟨s, by rw [statusOf_retained, hl], ht ▸ .refl s⟩
  · intro f hf huf
    rw [hasHistory_retained_acquired y u l hf]
    exact hasHistory_of_dropped y hd (hsub hf) huf

/-! ### Landings -/

/-- The record at a path, if there is one that parses. -/
def recordOf (bytes : Option Text) : Option (RecordShape V) :=
  bytes.bind fun b => (parseRecord y b).toOption

/-- A landing without a new revision leaves upstream as it is, stages the local bytes, or stages
bytes that parse to the record to be serialized. -/
def Lands (upstream : Option Text) (localBytes : Text) (next : Option Text) : Prop :=
  newRevision y upstream localBytes = false ∧
  match mergeFeedbackRecord y upstream localBytes with
  | .takeLocal none => next = some localBytes
  | .takeLocal (some r) => ∃ bytes, next = some bytes ∧ y.parse bytes = .ok (.mapping r)
  | .keepUpstream => next = upstream
  | .refuse _ => next = upstream

/-- No progress of a record that was there is lost. -/
def KeepsProgress (before after : Option Text) : Prop :=
  ∀ r, recordOf y before = some r → ∃ r', recordOf y after = some r' ∧ Progress y r r'

def OrderlyLanding (upstream : Option Text) (localBytes : Text) : Prop :=
  ∀ u l, recordOf y upstream = some u → recordOf y (some localBytes) = some l → Orderly y u l

theorem KeepsProgress.refl (b : Option Text) : KeepsProgress y b b :=
  fun r hr => ⟨r, hr, .refl y r⟩

variable {y} in
theorem KeepsProgress.trans {a b c : Option Text} (h₁ : KeepsProgress y a b)
    (h₂ : KeepsProgress y b c) : KeepsProgress y a c := by
  intro r hr
  obtain ⟨r', hr', hp⟩ := h₁ r hr
  obtain ⟨r'', hr'', hp'⟩ := h₂ r' hr'
  exact ⟨r'', hr'', hp.trans hp'⟩

variable {y}

omit [DecidableEq V] in
theorem recordOf_some {b : Text} {r : RecordShape V} :
    recordOf y (some b) = some r ↔ parseRecord y b = .ok r := by
  cases h : parseRecord y b <;> simp [recordOf, h, Except.toOption]

omit [DecidableEq V] in
theorem recordOf_of_parse {b : Text} {r : RecordShape V} (h : y.parse b = .ok (.mapping r)) :
    recordOf y (some b) = some r :=
  recordOf_some.mpr (by rw [parseRecord, h])

/-- The merge of different bytes that both parse is the merge of their records. -/
theorem mergeFeedbackRecord_of_records {b loc : Text} {u l : RecordShape V}
    (hrev : newRevision y (some b) loc = false) (hne : b ≠ loc)
    (hu : parseRecord y b = .ok u) (hl : parseRecord y loc = .ok l) :
    mergeFeedbackRecord y (some b) loc = mergeRecords y u l := by
  simp [mergeFeedbackRecord, hrev, hne, hu, hl]

/-- A landing over a record leaves it, or lands the retained record for a merge that takes the
local one. -/
theorem Lands.cases {b loc : Text} {u : RecordShape V} {next : Option Text}
    (h : Lands y (some b) loc next) (hu : recordOf y (some b) = some u) :
    (next = some b ∧ ∀ l, recordOf y (some loc) = some l → u ≠ l →
        mergeRecords y u l ≠ takeLocal y u l) ∨
    ∃ l, recordOf y (some loc) = some l ∧ mergeRecords y u l = takeLocal y u l ∧
      recordOf y next = some (retained y u l) := by
  obtain ⟨hrev, hnext⟩ := h
  have hub : parseRecord y b = .ok u := recordOf_some.mp hu
  by_cases hne : b = loc
  · subst hne
    simp only [mergeFeedbackRecord, hrev, if_true, Bool.false_eq_true, if_false] at hnext
    refine .inl ⟨hnext, ?_⟩
    intro l hl hul
    rw [hu, Option.some.injEq] at hl
    exact absurd hl hul
  · cases hlb : parseRecord y loc with
    | error e =>
        simp only [mergeFeedbackRecord, hrev, hne, hub, hlb, Bool.false_eq_true, if_false] at hnext
        refine .inl ⟨hnext, ?_⟩
        intro l hl
        rw [recordOf_some, hlb] at hl
        simp at hl
    | ok l =>
        have hl : recordOf y (some loc) = some l := recordOf_some.mpr hlb
        rw [mergeFeedbackRecord_of_records hrev hne hub hlb] at hnext
        have honly : ∀ l', recordOf y (some loc) = some l' → l' = l := by
          intro l' hl'
          rw [hl, Option.some.injEq] at hl'
          exact hl'.symm
        rcases mergeRecords_cases y u l with ⟨reason, hm⟩ | hm | ⟨hm, -⟩
        · rw [hm] at hnext
          refine .inl ⟨hnext, ?_⟩
          intro l' hl' _ heq
          rw [honly l' hl', hm] at heq
          exact (takeLocal_ne y u l).2 reason heq.symm
        · rw [hm] at hnext
          refine .inl ⟨hnext, ?_⟩
          intro l' hl' _ heq
          rw [honly l' hl', hm] at heq
          exact (takeLocal_ne y u l).1 heq.symm
        · rw [hm] at hnext
          refine .inr ⟨l, hl, hm, ?_⟩
          by_cases hret : retained y u l = l
          · simp only [takeLocal, hret, if_true] at hnext
            rw [hnext, hret, hl]
          · simp only [takeLocal, hret, if_false] at hnext
            obtain ⟨bytes, rfl, hparse⟩ := hnext
            exact recordOf_of_parse hparse

/-- A single landing keeps the progress of the record exactly when it is orderly. -/
theorem landing_progress_iff {upstream next : Option Text} {loc : Text}
    (h : Lands y upstream loc next) :
    KeepsProgress y upstream next ↔ OrderlyLanding y upstream loc := by
  cases upstream with
  | none => simp [KeepsProgress, OrderlyLanding, recordOf]
  | some b =>
      constructor
      · intro hkeep u l hu hl hid su sl hsu hsl hlt
        have hm := mergeRecords_of_later y hid hsu hsl hlt
        have hul : u ≠ l := by
          rintro rfl
          rw [hsu, Option.some.injEq] at hsl
          subst hsl
          omega
        rcases h.cases hu with ⟨-, hno⟩ | ⟨l', hl', -, hret⟩
        · exact absurd hm (hno l hl hul)
        · rw [hl, Option.some.injEq] at hl'
          subst hl'
          obtain ⟨r', hr', hp⟩ := hkeep u hu
          rw [hret, Option.some.injEq] at hr'
          subst hr'
          exact (progress_retained_iff y hsu hsl).mp hp
      · intro hord u hu
        rcases h.cases hu with ⟨rfl, -⟩ | ⟨l, hl, hm, hret⟩
        · exact ⟨u, hu, .refl y u⟩
        · refine ⟨_, hret, ?_⟩
          rcases mergeRecords_cases y u l with ⟨reason, hm'⟩ | hm' |
            ⟨-, hid, su, sl, hsu, hsl, ⟨rfl, hd⟩ | hlt⟩
          · exact absurd (hm.symm.trans hm') ((takeLocal_ne y u l).2 reason)
          · exact absurd (hm.symm.trans hm') (takeLocal_ne y u l).1
          · exact progress_retained_of_same y hsu hsl hd
          · exact (progress_retained_iff y hsu hsl).mpr (hord u l hu hl hid su sl hsu hsl hlt)

theorem keepsProgress_of_run {b b' : Option Text} {locals : List Text}
    (h : Run (Guarded (Lands y) (OrderlyLanding y)) b locals b') : KeepsProgress y b b' := by
  refine h.invariant (I := KeepsProgress y b) ?_ (.refl y b)
  rintro s loc t hs ⟨hland, hord⟩
  exact hs.trans ((landing_progress_iff hland).mpr hord)

variable (y) in
/-- In a run of landings that are all orderly no landing loses progress that the record had made at
any earlier moment; and a landing that is not orderly does. -/
theorem landings_progress :
    (∀ b locals b', Run (Guarded (Lands y) (OrderlyLanding y)) b locals b' →
      ∀ earlier later, locals = earlier ++ later →
        ∃ m, Run (Lands y) b earlier m ∧ Run (Lands y) m later b' ∧
          KeepsProgress y b m ∧ KeepsProgress y m b') ∧
    ∀ b loc b', Lands y b loc b' → (KeepsProgress y b b' ↔ OrderlyLanding y b loc) := by
  refine ⟨?_, fun b loc b' h => landing_progress_iff h⟩
  rintro b locals b' h earlier later rfl
  obtain ⟨m, h₁, h₂⟩ := h.split
  exact ⟨m, h₁.of_guarded, h₂.of_guarded, keepsProgress_of_run h₁, keepsProgress_of_run h₂⟩

/-! ### Flat documents -/

/-- A line `key: value`. -/
def flatField (line : Text) : Option (Text × Option Text) :=
  let key := line.takeWhile (· ≠ ':')
  let value := Text.trim (line.drop (key.length + 1))
  if line = [] then none else some (key, if value = "null".toList then none else some value)

/-- YAML on documents of lines `key: value` with plain texts or `null`. -/
def flatYaml : Yaml (Option Text) where
  null := none
  textOf v := v
  truthy v := v.isSome && v ≠ some []
  json v := (v.map Json.quote).getD "null".toList
  parse bytes := .ok (.mapping ((Text.splitBy (· = '\n') bytes).filterMap flatField))
  validateEvidenceRevision _ _ := none

/-- An accepted record with a summary. -/
def acceptedBytes : Text := "status: accepted\nsummary: done\n".toList

/-- A copy that says rejected, and has no summary. -/
def rejectedBytes : Text := "status: rejected\n".toList

def grillingBytes : Text := "status: grilling\nthread_id: t1\n".toList

def proposedBytes : Text := "status: proposed\nsummary: done\n".toList

/-- The proposed copy gets the thread of the record it lands over, and the older copy is refused. -/
def threadedBytes : Text := "status: proposed\nsummary: done\nthread_id: t1\n".toList

def acceptedRecord : RecordShape (Option Text) :=
  [("status".toList, some "accepted".toList), ("summary".toList, some "done".toList)]

def rejectedRecord : RecordShape (Option Text) := [("status".toList, some "rejected".toList)]

def grillingRecord : RecordShape (Option Text) :=
  [("status".toList, some "grilling".toList), ("thread_id".toList, some "t1".toList)]

def proposedRecord : RecordShape (Option Text) :=
  [("status".toList, some "proposed".toList), ("summary".toList, some "done".toList)]

def threadedRecord : RecordShape (Option Text) :=
  [("status".toList, some "proposed".toList), ("summary".toList, some "done".toList),
    ("thread_id".toList, some "t1".toList)]

theorem parse_flat : parseRecord flatYaml acceptedBytes = .ok acceptedRecord ∧
    parseRecord flatYaml rejectedBytes = .ok rejectedRecord ∧
    parseRecord flatYaml grillingBytes = .ok grillingRecord ∧
    parseRecord flatYaml proposedBytes = .ok proposedRecord ∧
    parseRecord flatYaml threadedBytes = .ok threadedRecord := by
  refine ⟨?_, ?_, ?_, ?_, ?_⟩ <;> decide +kernel

theorem status_flat : statusOf flatYaml acceptedRecord = some .accepted ∧
    statusOf flatYaml rejectedRecord = some .rejected ∧
    statusOf flatYaml grillingRecord = some .grilling ∧
    statusOf flatYaml proposedRecord = some .proposed ∧
    statusOf flatYaml threadedRecord = some .proposed := by
  decide +kernel

theorem newRevision_flat : newRevision flatYaml (some acceptedBytes) rejectedBytes = false ∧
    newRevision flatYaml (some grillingBytes) proposedBytes = false ∧
    newRevision flatYaml (some threadedBytes) grillingBytes = false := by
  decide +kernel

/-- The copy lands over the accepted record, which is then rejected and without its summary. -/
theorem rejected_lands_over_accepted :
    Run (Lands flatYaml) (some acceptedBytes) [rejectedBytes] (some rejectedBytes) ∧
      ¬ KeepsProgress flatYaml (some acceptedBytes) (some rejectedBytes) := by
  obtain ⟨haccepted, hrejected, -⟩ := parse_flat
  obtain ⟨hfrom, hto, -⟩ := status_flat
  constructor
  · have hrev := newRevision_flat.1
    have hm : mergeFeedbackRecord flatYaml (some acceptedBytes) rejectedBytes = .takeLocal none := by
      rw [mergeFeedbackRecord_of_records hrev (by decide) haccepted hrejected]
      decide +kernel
    refine Run.single ⟨hrev, ?_⟩
    rw [hm]
  · intro h
    obtain ⟨r', hr', hp⟩ := h _ (recordOf_some.mpr haccepted)
    rw [recordOf_some.mpr hrejected, Option.some.injEq] at hr'
    subst hr'
    obtain ⟨s', hs', hle⟩ := hp.forward .accepted hfrom
    cases hto.symm.trans hs'
    exact absurd hle (by decide)

theorem lands_proposed :
    Lands flatYaml (some grillingBytes) proposedBytes (some threadedBytes) := by
  obtain ⟨-, -, hgrilling, hproposed, -⟩ := parse_flat
  have hrev := newRevision_flat.2.1
  have hm : mergeFeedbackRecord flatYaml (some grillingBytes) proposedBytes =
      .takeLocal (some threadedRecord) := by
    rw [mergeFeedbackRecord_of_records hrev (by decide) hgrilling hproposed]
    decide +kernel
  refine ⟨hrev, ?_⟩
  rw [hm]
  exact ⟨threadedBytes, rfl, rfl⟩

theorem lands_grilling_again :
    Lands flatYaml (some threadedBytes) grillingBytes (some threadedBytes) := by
  obtain ⟨-, -, hgrilling, -, hthreaded⟩ := parse_flat
  obtain ⟨-, -, hto, -, hfrom⟩ := status_flat
  have hrev := newRevision_flat.2.2
  have hm : mergeFeedbackRecord flatYaml (some threadedBytes) grillingBytes =
      .refuse (earlierReason .proposed .grilling) := by
    rw [mergeFeedbackRecord_of_records hrev (by decide) hthreaded hgrilling]
    exact mergeRecords_of_earlier flatYaml (by decide +kernel) hfrom hto (by decide)
  refine ⟨hrev, ?_⟩
  rw [hm]

theorem orderly_proposed : OrderlyLanding flatYaml (some grillingBytes) proposedBytes := by
  obtain ⟨-, -, hgrilling, hproposed, -⟩ := parse_flat
  obtain ⟨-, -, hfrom, hto, -⟩ := status_flat
  intro u l hu hl _ su sl hsu hsl _
  rw [recordOf_some.mpr hgrilling, Option.some.injEq] at hu
  rw [recordOf_some.mpr hproposed, Option.some.injEq] at hl
  subst hu hl
  cases hfrom.symm.trans hsu
  cases hto.symm.trans hsl
  exact ⟨by decide, by decide +kernel⟩

theorem orderly_grilling_again : OrderlyLanding flatYaml (some threadedBytes) grillingBytes := by
  obtain ⟨-, -, hgrilling, -, hthreaded⟩ := parse_flat
  obtain ⟨-, -, hto, -, hfrom⟩ := status_flat
  intro u l hu hl _ su sl hsu hsl hlt
  rw [recordOf_some.mpr hthreaded, Option.some.injEq] at hu
  rw [recordOf_some.mpr hgrilling, Option.some.injEq] at hl
  subst hu hl
  cases hfrom.symm.trans hsu
  cases hto.symm.trans hsl
  exact absurd hlt (by decide)

theorem landings_progress_threaded :
    ∃ m, Run (Lands flatYaml) (some grillingBytes) [proposedBytes] m ∧
      Run (Lands flatYaml) m [grillingBytes] (some threadedBytes) ∧
      KeepsProgress flatYaml (some grillingBytes) m ∧
      KeepsProgress flatYaml m (some threadedBytes) := by
  have hrun : Run (Guarded (Lands flatYaml) (OrderlyLanding flatYaml)) (some grillingBytes)
      [proposedBytes, grillingBytes] (some threadedBytes) :=
    .cons ⟨lands_proposed, orderly_proposed⟩ (.single ⟨lands_grilling_again, orderly_grilling_again⟩)
  exact (landings_progress flatYaml).1 _ _ _ hrun [proposedBytes] [grillingBytes] rfl

end Remudero.Feedback
