import Remudero.Lib.Later
import Remudero.Lib.Regex
import Remudero.Lib.Row

/-! # What a rotation carries

`pruneCarriedRows` and `planOnlyReviewMarkers` of `lib/ledger-carry.ts`.  Of the rows that a rotation
would write back, the prune drops the sweep and review rows of pull requests with a recorded terminal
fact and the superseded rows of steps whose readers take only the newest row; a dropped plan-only
review leaves a small marker behind.

The program compares rows by identity; here a row is known by its place in the list (`keptRows`).

`prune_composes`: pruning a list, appending to it and pruning again is pruning once; a row of a pull
request with no recorded merge and no closing after it stays, unless it is a superseded row of a
latest-only step; the last row of a latest-only key stays; and a dropped plan-only review leaves
exactly one marker, when its url and head have no NUL character.  `superseded_row_dropped` is why the
second and the last of these carry a condition. -/

namespace Remudero.Ledger

open Remudero.Lib

/-- A row as the rotation parsed it. -/
structure CarriedRow where
  json : Option Lib.Row
  step : Option Text

def prTerminalStep : Text := "pr.terminal".toList

def planOnlyReviewMarkerStep : Text := "review.plan_only_reviewed".toList

/-- The steps whose readers take only the newest row for a key, with the key of such a row. -/
def latestRowLedgerSteps (step : Text) : Option (Lib.Row → Text) :=
  if step = "main.health.observed".toList then some fun _ => []
  else if step = "dep-review.decided".toList then some fun row => row.shown "task_id"
  else none

/-! ### Pull requests -/

/-- `github\.com\/([^/]+\/[^/]+)\/pull\/(\d+)` -/
def prUrlPattern : Re :=
  let notSlash := Re.plus (.cls (· != '/'))
  .seqs [.text "github.com/", .group 1 (.seqs [notSlash, .char '/', notSlash]), .text "/pull/",
    .group 2 (.plus .digit)]

/-- `owner/repo#n` for the url of a pull request. -/
def prUrlKey : Option Json → Option Text
  | some (.str prUrl) => (prUrlPattern.exec prUrl).map fun m => m.group 1 ++ '#' :: m.group 2
  | _ => none

def sweepPrKey (row : Lib.Row) : Option Text := prUrlKey (row.field "pr_url")

/-- The pull request of which a row records a terminal fact. -/
def recordedMergeKey (row : Lib.Row) (step : Option Text) : Option Text :=
  if step = some "verdict.merged".toList ∨ step = some prTerminalStep
      ∨ (step = some "verdict".toList ∧ row.str "verdict" = some "merged".toList) then
    sweepPrKey row
  else none

/-- The terminal fact is a closing without a merge. -/
def closes (row : Lib.Row) (step : Option Text) : Bool :=
  step = some prTerminalStep && row.str "state" ≠ some "merged".toList

def mergedKeptDispositions : List Text :=
  ["blocked-fixable".toList, "blocked-ambiguous".toList, "stale".toList, "conflicted".toList]

def keptAfterMerge (row : Lib.Row) : Bool :=
  if row.bool "acted" = some true then
    ((row.str "disposition").any fun d => d ∈ mergedKeptDispositions) || (row.str "keep_head_branch").isSome
  else false

/-! ### The prune -/

namespace CarriedRow

/-- The key under which a row enters `merged`. -/
def mergedKey (row : CarriedRow) : Option Text :=
  row.json.bind fun json =>
    (recordedMergeKey json row.step).filter fun _ => !closes json row.step

/-- The key under which a row enters `closedAt`. -/
def closedKey (row : CarriedRow) : Option Text :=
  row.json.bind fun json =>
    (recordedMergeKey json row.step).filter fun _ => closes json row.step

/-- The key under which a row enters `latestByKey`. -/
def latestKey (row : CarriedRow) : Option Text :=
  row.json.bind fun json => row.step.bind fun step =>
    (latestRowLedgerSteps step).map fun keyOf => step ++ '\x00' :: keyOf json

/-- The pull request of a row. -/
def prKey (row : CarriedRow) : Option Text := row.json.bind sweepPrKey

end CarriedRow

def mergedKeys (rows : List CarriedRow) : List Text := rows.filterMap CarriedRow.mergedKey

/-- The filter of `pruneCarriedRows` on the row at a place. -/
def carries (rows : List CarriedRow) (row : CarriedRow) (index : ℕ) : Bool :=
  match row.json, row.step with
  | some json, some step =>
      match latestRowLedgerSteps step with
      | some keyOf => lastAt CarriedRow.latestKey rows (step ++ '\x00' :: keyOf json) = some index
      | none =>
          if step ≠ "sweep.disposed".toList ∧ step ≠ "review.posted".toList then true
          else
            match sweepPrKey json with
            | none => true
            | some key =>
                if key ∈ mergedKeys rows ∨ (lastAt CarriedRow.closedKey rows key).any fun at_ => index < at_ then
                  step = "sweep.disposed".toList && keptAfterMerge json
                else true
  | _, _ => true

/-- The rows that stay, with their places. -/
def keptRows (rows : List CarriedRow) : List (CarriedRow × ℕ) :=
  rows.zipIdx.filter fun p => carries rows p.1 p.2

def pruneCarriedRows (rows : List CarriedRow) : List CarriedRow := (keptRows rows).map Prod.fst

/-! ### Markers -/

/-- The stand-in for a plan-only review that is not carried. -/
structure PlanOnlyMarker where
  prUrl : Text
  headSha : Text
  reviewTaskId : Option Json
  reviewedAt : Option Json

/-- What `planOnlyReviewMarkers` knows a review or a marker by. -/
def reviewKey (prUrl headSha : Text) : Text := prUrl ++ '\x00' :: headSha

/-- The marker of a plan-only review with a url and a head. -/
def planOnlyMarker (row : CarriedRow) : Option PlanOnlyMarker :=
  row.json.bind fun json =>
    if row.step = some "review.posted".toList ∧ json.bool "plan_only" = some true then
      match json.str "pr_url", json.str "head_sha" with
      | some prUrl, some headSha => some ⟨prUrl, headSha, json.field "task_id", json.field "ts"⟩
      | _, _ => none
    else none

/-- The key of a marker that a rotation carries. -/
def carriedMarkerKey (row : CarriedRow) : Option Text :=
  row.json.bind fun json =>
    if row.step = some planOnlyReviewMarkerStep then some (reviewKey (json.shown "pr_url") (json.shown "head_sha"))
    else none

/-- The loop of `planOnlyReviewMarkers`; `seen` are the keys that have a marker. -/
def markersFrom (carried : List (CarriedRow × ℕ)) : List Text → List (CarriedRow × ℕ) → List PlanOnlyMarker
  | _, [] => []
  | seen, row :: rows =>
      if row.2 ∈ carried.map Prod.snd then markersFrom carried seen rows
      else
        match planOnlyMarker row.1 with
        | none => markersFrom carried seen rows
        | some m =>
            if reviewKey m.prUrl m.headSha ∈ seen then markersFrom carried seen rows
            else m :: markersFrom carried (reviewKey m.prUrl m.headSha :: seen) rows

/-- One marker for each url and head whose plan-only review is not carried. -/
def planOnlyReviewMarkers (rows : List CarriedRow) (carried : List (CarriedRow × ℕ)) : List PlanOnlyMarker :=
  markersFrom carried (carried.filterMap fun p => carriedMarkerKey p.1) rows.zipIdx

/-! ### Looking ahead -/

/-- The filter on a row, given the keys with a recorded merge and the rows after it. -/
def carriesBefore (merged : List Text) (row : CarriedRow) (after : List CarriedRow) : Bool :=
  match row.json, row.step with
  | some json, some step =>
      match latestRowLedgerSteps step with
      | some keyOf => !after.any fun r => r.latestKey = some (step ++ '\x00' :: keyOf json)
      | none =>
          if step ≠ "sweep.disposed".toList ∧ step ≠ "review.posted".toList then true
          else
            match sweepPrKey json with
            | none => true
            | some key =>
                if key ∈ merged ∨ after.any fun r => r.closedKey = some key then
                  step = "sweep.disposed".toList && keptAfterMerge json
                else true
  | _, _ => true

theorem latestKey_of_step {row : CarriedRow} {json : Lib.Row} {step : Text} {keyOf : Lib.Row → Text}
    (hjson : row.json = some json) (hstep : row.step = some step)
    (hlatest : latestRowLedgerSteps step = some keyOf) :
    row.latestKey = some (step ++ '\x00' :: keyOf json) := by
  rw [CarriedRow.latestKey, hjson, hstep, Option.bind_some, Option.bind_some, hlatest, Option.map_some]

theorem carries_eq (before : List CarriedRow) (row : CarriedRow) (after : List CarriedRow) :
    carries (before ++ row :: after) row before.length
      = carriesBefore (mergedKeys (before ++ row :: after)) row after := by
  unfold carries carriesBefore
  split
  next json step hjson hstep =>
    split
    next keyOf hlatest =>
      have hkey := latestKey_of_step hjson hstep hlatest
      rw [Bool.eq_iff_iff, decide_eq_true_eq, lastAt_eq_some_iff hkey]
      simp
    next => simp only [any_lt_lastAt]
  next => rfl

theorem pruneCarriedRows_eq (rows : List CarriedRow) :
    pruneCarriedRows rows = keepAfter (carriesBefore (mergedKeys rows)) rows := by
  apply map_fst_filter_zipIdx
  rintro before row after rfl
  exact carries_eq before row after

theorem any_key_eq {f : CarriedRow → Option Text} (rows : List CarriedRow) (k : Text) :
    (rows.any fun r => f r = some k) = decide (k ∈ rows.filterMap f) := by
  rw [Bool.eq_iff_iff, decide_eq_true_eq, List.any_eq_true, List.mem_filterMap]
  simp only [decide_eq_true_eq]

/-- Terminal facts are of steps that are never dropped. -/
theorem carriesBefore_of_recordedMergeKey {row : CarriedRow} {json : Lib.Row} (hjson : row.json = some json)
    (h : (recordedMergeKey json row.step).isSome) (merged : List Text) (after : List CarriedRow) :
    carriesBefore merged row after = true := by
  have hsteps : row.step = some "verdict.merged".toList ∨ row.step = some prTerminalStep
      ∨ (row.step = some "verdict".toList ∧ json.str "verdict" = some "merged".toList) := by
    by_contra hne
    rw [recordedMergeKey, if_neg hne] at h
    cases h
  unfold carriesBefore
  rw [hjson]
  obtain hs | hs | ⟨hs, -⟩ := hsteps <;> rw [hs] <;> rfl

theorem carriesBefore_of_mergedKey {row : CarriedRow} (h : row.mergedKey.isSome) (merged : List Text)
    (after : List CarriedRow) : carriesBefore merged row after = true := by
  obtain ⟨key, hkey⟩ := Option.isSome_iff_exists.mp h
  obtain ⟨json, hjson, hfilter⟩ := Option.bind_eq_some_iff.mp hkey
  apply carriesBefore_of_recordedMergeKey hjson
  rw [(Option.filter_eq_some_iff.mp hfilter).1]
  rfl

theorem carriesBefore_of_closedKey {row : CarriedRow} (h : row.closedKey.isSome) (merged : List Text)
    (after : List CarriedRow) : carriesBefore merged row after = true := by
  obtain ⟨key, hkey⟩ := Option.isSome_iff_exists.mp h
  obtain ⟨json, hjson, hfilter⟩ := Option.bind_eq_some_iff.mp hkey
  apply carriesBefore_of_recordedMergeKey hjson
  rw [(Option.filter_eq_some_iff.mp hfilter).1]
  rfl

/-- A dropped row is dropped whatever comes later and whatever else is recorded as merged. -/
theorem carriesBefore_append {merged merged' : List Text} (hsub : merged ⊆ merged') {row : CarriedRow}
    {after : List CarriedRow} (h : carriesBefore merged row after = false) (later : List CarriedRow) :
    carriesBefore merged' row (after ++ later) = false := by
  unfold carriesBefore at h ⊢
  split at h
  next json step hjson hstep =>
    split at h
    next keyOf hlatest =>
      rw [Bool.not_eq_false'] at h ⊢
      rw [List.any_append, h, Bool.true_or]
    next hlatest =>
      split at h
      · cases h
      next hsteps =>
        rw [if_neg hsteps]
        split at h
        · cases h
        next key hkey =>
          split at h
          next hdone =>
            rw [if_pos]
            · exact h
            · obtain hm | hc := hdone
              · exact Or.inl (hsub hm)
              · right
                rw [List.any_append, hc, Bool.true_or]
          next => cases h
  next => cases h

/-- The dropped rows make no difference to a row before them that stays. -/
theorem carriesBefore_keepAfter {merged merged' : List Text} {row : CarriedRow} {after : List CarriedRow}
    (h : carriesBefore merged row after = true) (later : List CarriedRow) :
    carriesBefore merged' row (keepAfter (carriesBefore merged) after ++ later)
      = carriesBefore merged' row (after ++ later) := by
  have hclosed : (keepAfter (carriesBefore merged) after).filterMap CarriedRow.closedKey
      = after.filterMap CarriedRow.closedKey :=
    filterMap_keepAfter _ (fun a as ha => carriesBefore_of_closedKey ha merged as) after
  have hsub : keepAfter (carriesBefore merged) after ⊆ after := (keepAfter_sublist after).subset
  generalize keepAfter (carriesBefore merged) after = kept at hclosed hsub ⊢
  unfold carriesBefore at h ⊢
  split at h
  next json step hjson hstep =>
    split at h
    next keyOf hlatest =>
      rw [Bool.not_eq_true'] at h
      have hkept : (kept.any fun r => r.latestKey = some (step ++ '\x00' :: keyOf json)) = false := by
        rw [List.any_eq_false] at h ⊢
        intro r hr
        exact h r (hsub hr)
      rw [List.any_append, List.any_append, h, hkept]
    next hlatest => simp only [List.any_append, any_key_eq, hclosed]
  next => rfl

theorem mergedKeys_pruneCarriedRows_append (rows later : List CarriedRow) :
    mergedKeys (pruneCarriedRows rows ++ later) = mergedKeys (rows ++ later) := by
  rw [mergedKeys, mergedKeys, List.filterMap_append, List.filterMap_append, pruneCarriedRows_eq,
    filterMap_keepAfter _ fun a as ha => carriesBefore_of_mergedKey ha _ as]

theorem mergedKeys_subset_append (rows later : List CarriedRow) : mergedKeys rows ⊆ mergedKeys (rows ++ later) := by
  rw [mergedKeys, mergedKeys, List.filterMap_append]
  exact List.subset_append_left _ _

/-- Pruning at every rotation is pruning once. -/
theorem pruneCarriedRows_append (rows later : List CarriedRow) :
    pruneCarriedRows (pruneCarriedRows rows ++ later) = pruneCarriedRows (rows ++ later) := by
  rw [pruneCarriedRows_eq (pruneCarriedRows rows ++ later), pruneCarriedRows_eq (rows ++ later),
    mergedKeys_pruneCarriedRows_append, pruneCarriedRows_eq rows]
  apply keepAfter_append_keepAfter
  · intro row after bs h
    exact carriesBefore_append (mergedKeys_subset_append rows later) h bs
  · intro row after bs h
    exact carriesBefore_keepAfter h bs

/-! ### Rows that stay -/

theorem mem_keptRows {rows : List CarriedRow} {row : CarriedRow} {i : ℕ} (h : rows[i]? = some row) :
    (row, i) ∈ keptRows rows ↔ carriesBefore (mergedKeys rows) row (rows.drop (i + 1)) = true := by
  obtain ⟨hi, hrow⟩ := List.getElem?_eq_some_iff.mp h
  have hsplit : rows = rows.take i ++ row :: rows.drop (i + 1) := by
    rw [← hrow, List.cons_getElem_drop_succ, List.take_append_drop]
  have hlen : (rows.take i).length = i := by
    rw [List.length_take]
    omega
  have hcarries : carries rows row i = carriesBefore (mergedKeys rows) row (rows.drop (i + 1)) := by
    have := carries_eq (rows.take i) row (rows.drop (i + 1))
    rwa [← hsplit, hlen] at this
  rw [keptRows, List.mem_filter, hcarries, List.mk_mem_zipIdx_iff_getElem?]
  exact and_iff_right h

/-- A row of a pull request that is neither merged nor closed later stays, if no later row
supersedes it. -/
theorem carriesBefore_of_open {merged : List Text} {row : CarriedRow} {after : List CarriedRow} {key : Text}
    (hkey : row.prKey = some key) (hmerged : key ∉ merged) (hclosed : ∀ r ∈ after, r.closedKey ≠ some key)
    (hlatest : ∀ k, row.latestKey = some k → ∀ r ∈ after, r.latestKey ≠ some k) :
    carriesBefore merged row after = true := by
  unfold carriesBefore
  split
  next json step hjson hstep =>
    split
    next keyOf hl =>
      have hno := hlatest _ (latestKey_of_step hjson hstep hl)
      rw [Bool.not_eq_true', List.any_eq_false]
      intro r hr
      rw [decide_eq_true_eq]
      exact hno r hr
    next =>
      split
      · rfl
      · split
        · rfl
        next key' hkey' =>
          have hsame : key' = key := by
            rw [CarriedRow.prKey, hjson, Option.bind_some, hkey'] at hkey
            exact Option.some.inj hkey
          subst hsame
          rw [if_neg]
          rintro (hm | hc)
          · exact hmerged hm
          · obtain ⟨r, hr, heq⟩ := List.any_eq_true.mp hc
            exact hclosed r hr (of_decide_eq_true heq)
  next => rfl

theorem carriesBefore_of_latest {merged : List Text} {row : CarriedRow} {after : List CarriedRow} {k : Text}
    (hk : row.latestKey = some k) (hlast : ∀ r ∈ after, r.latestKey ≠ some k) :
    carriesBefore merged row after = true := by
  obtain ⟨json, hjson, hk⟩ := Option.bind_eq_some_iff.mp hk
  obtain ⟨step, hstep, hk⟩ := Option.bind_eq_some_iff.mp hk
  obtain ⟨keyOf, hlatest, hk⟩ := Option.map_eq_some_iff.mp hk
  subst hk
  unfold carriesBefore
  rw [hjson, hstep]
  simp only [hlatest, Bool.not_eq_true', List.any_eq_false, decide_eq_true_eq]
  exact hlast

/-! ### One marker each -/

/-- The row is a marker for the url and the head. -/
def CarriedRow.Marks (row : CarriedRow) (prUrl headSha : Text) : Prop :=
  row.step = some planOnlyReviewMarkerStep
    ∧ ∃ json, row.json = some json ∧ json.shown "pr_url" = prUrl ∧ json.shown "head_sha" = headSha

/-- A marker for the url and the head. -/
def PlanOnlyMarker.isFor (prUrl headSha : Text) (m : PlanOnlyMarker) : Bool :=
  m.prUrl = prUrl && m.headSha = headSha

theorem PlanOnlyMarker.isFor_iff {prUrl headSha : Text} {m : PlanOnlyMarker} :
    m.isFor prUrl headSha = true ↔ m.prUrl = prUrl ∧ m.headSha = headSha := by
  rw [isFor, Bool.and_eq_true, decide_eq_true_eq, decide_eq_true_eq]

/-- The separator tells a url from a head when neither holds it. -/
theorem reviewKey_inj {u h u' h' : Text} (hu : '\x00' ∉ u) (hh : '\x00' ∉ h)
    (heq : reviewKey u' h' = reviewKey u h) : u' = u ∧ h' = h := by
  unfold reviewKey at heq
  obtain ⟨a, hua, hha⟩ | ⟨a, hua, hha⟩ := List.append_eq_append_iff.mp heq
  · cases a with
    | nil =>
        rw [List.append_nil] at hua
        exact ⟨hua.symm, List.tail_eq_of_cons_eq hha⟩
    | cons c a =>
        -- the separator of the other key is in `u`
        have hc : '\x00' = c := (List.cons.inj hha).1
        rw [hua, ← hc] at hu
        exact absurd (List.mem_append_right _ List.mem_cons_self) hu
  · cases a with
    | nil =>
        rw [List.append_nil] at hua
        exact ⟨hua, (List.tail_eq_of_cons_eq hha).symm⟩
    | cons c a =>
        have ht : h = a ++ '\x00' :: h' := (List.cons.inj hha).2
        rw [ht] at hh
        exact absurd (List.mem_append_right _ List.mem_cons_self) hh

theorem carriedMarkerKey_eq_iff {row : CarriedRow} {u h : Text} (hu : '\x00' ∉ u) (hh : '\x00' ∉ h) :
    carriedMarkerKey row = some (reviewKey u h) ↔ row.Marks u h := by
  constructor
  · intro hk
    obtain ⟨json, hjson, hk⟩ := Option.bind_eq_some_iff.mp hk
    split at hk
    next hstep =>
      obtain ⟨h1, h2⟩ := reviewKey_inj hu hh (Option.some.inj hk)
      exact ⟨hstep, json, hjson, h1, h2⟩
    next => cases hk
  · rintro ⟨hstep, json, hjson, rfl, rfl⟩
    rw [carriedMarkerKey, hjson, Option.bind_some, if_pos hstep]

/-- A review that is not carried and asks for a marker of the url and the head. -/
def Asks (carried : List (CarriedRow × ℕ)) (u h : Text) (row : CarriedRow × ℕ) : Prop :=
  row.2 ∉ carried.map Prod.snd ∧ ∃ m, planOnlyMarker row.1 = some m ∧ m.isFor u h

theorem reviewKey_of_isFor {m : PlanOnlyMarker} {u h : Text} (hm : m.isFor u h = true) :
    reviewKey m.prUrl m.headSha = reviewKey u h := by
  obtain ⟨h1, h2⟩ := PlanOnlyMarker.isFor_iff.mp hm
  rw [h1, h2]

theorem filter_markersFrom_of_seen {u h : Text} (carried : List (CarriedRow × ℕ)) {seen : List Text}
    (hseen : reviewKey u h ∈ seen) (rows : List (CarriedRow × ℕ)) :
    (markersFrom carried seen rows).filter (PlanOnlyMarker.isFor u h) = [] := by
  induction rows generalizing seen with
  | nil => rfl
  | cons row rows ih =>
      rw [markersFrom]
      split
      · exact ih hseen
      · split
        · exact ih hseen
        next m hm =>
          split
          · exact ih hseen
          next hnew =>
            have hfor : ¬ m.isFor u h = true := by
              intro hfor
              rw [reviewKey_of_isFor hfor] at hnew
              exact hnew hseen
            rw [List.filter_cons_of_neg hfor]
            exact ih (List.mem_cons_of_mem _ hseen)

/-- The loop makes one marker for a url and a head that is asked for and not seen. -/
theorem length_markersFrom {u h : Text} (hu : '\x00' ∉ u) (hh : '\x00' ∉ h) (carried : List (CarriedRow × ℕ))
    {seen : List Text} (hseen : reviewKey u h ∉ seen) {rows : List (CarriedRow × ℕ)}
    (hasks : ∃ row ∈ rows, Asks carried u h row) :
    ((markersFrom carried seen rows).filter (PlanOnlyMarker.isFor u h)).length = 1 := by
  induction rows generalizing seen with
  | nil =>
      obtain ⟨row, hrow, -⟩ := hasks
      cases hrow
  | cons row rows ih =>
      -- the row itself does not ask, so a later one does
      have later : ¬ Asks carried u h row → ∃ r ∈ rows, Asks carried u h r := by
        intro hnot
        obtain ⟨r, hr, ha⟩ := hasks
        obtain rfl | hr := List.mem_cons.mp hr
        · exact absurd ha hnot
        · exact ⟨r, hr, ha⟩
      rw [markersFrom]
      split
      next hcarried => exact ih hseen (later fun ha => ha.1 hcarried)
      next =>
        split
        next hnone =>
          apply ih hseen
          apply later
          rintro ⟨-, m, hm, -⟩
          rw [hnone] at hm
          cases hm
        next m hm =>
          have hasks_iff : Asks carried u h row → m.isFor u h = true := by
            rintro ⟨-, m', hm', hfor⟩
            rw [hm] at hm'
            rw [Option.some.inj hm']
            exact hfor
          split
          next hold =>
            apply ih hseen
            apply later
            intro ha
            rw [reviewKey_of_isFor (hasks_iff ha)] at hold
            exact hseen hold
          next =>
            by_cases hfor : m.isFor u h = true
            · rw [List.filter_cons_of_pos hfor, List.length_cons, filter_markersFrom_of_seen]
              · rfl
              · rw [reviewKey_of_isFor hfor]
                exact List.mem_cons_self
            · rw [List.filter_cons_of_neg hfor]
              apply ih
              · intro hmem
                obtain heq | hmem := List.mem_cons.mp hmem
                · exact hfor (PlanOnlyMarker.isFor_iff.mpr (reviewKey_inj hu hh heq.symm))
                · exact hseen hmem
              · exact later fun ha => hfor (hasks_iff ha)

/-- A dropped plan-only review leaves one marker, unless one is carried. -/
theorem length_planOnlyReviewMarkers {rows : List CarriedRow} {i : ℕ} {row : CarriedRow} {m : PlanOnlyMarker}
    (hrow : rows[i]? = some row) (hm : planOnlyMarker row = some m) (hu : '\x00' ∉ m.prUrl)
    (hh : '\x00' ∉ m.headSha) (hdropped : (row, i) ∉ keptRows rows) :
    (∃ p ∈ keptRows rows, p.1.Marks m.prUrl m.headSha) ∨
      ((planOnlyReviewMarkers rows (keptRows rows)).filter (PlanOnlyMarker.isFor m.prUrl m.headSha)).length = 1 := by
  by_cases hmark : ∃ p ∈ keptRows rows, p.1.Marks m.prUrl m.headSha
  · exact Or.inl hmark
  · right
    apply length_markersFrom hu hh
    · intro hseen
      obtain ⟨p, hp, hk⟩ := List.mem_filterMap.mp hseen
      exact hmark ⟨p, hp, (carriedMarkerKey_eq_iff hu hh).mp hk⟩
    · refine ⟨(row, i), List.mk_mem_zipIdx_iff_getElem?.mpr hrow, ?_, m, hm, ?_⟩
      · -- a kept row at the place `i` would be this row
        intro hi
        obtain ⟨⟨r, j⟩, hmem, rfl⟩ := List.mem_map.mp hi
        have hr : rows[j]? = some r := List.mk_mem_zipIdx_iff_getElem?.mp (List.mem_of_mem_filter hmem)
        rw [hr] at hrow
        rw [Option.some.inj hrow] at hmem
        exact hdropped hmem
      · exact PlanOnlyMarker.isFor_iff.mpr ⟨rfl, rfl⟩

theorem prune_composes :
    (∀ rows later : List CarriedRow,
        pruneCarriedRows (pruneCarriedRows rows ++ later) = pruneCarriedRows (rows ++ later)) ∧
    (∀ (rows : List CarriedRow) (i : ℕ) (row : CarriedRow) (key : Text), rows[i]? = some row →
        row.prKey = some key → key ∉ mergedKeys rows → (∀ r ∈ rows.drop (i + 1), r.closedKey ≠ some key) →
        (∃ k, row.latestKey = some k ∧ ∃ r ∈ rows.drop (i + 1), r.latestKey = some k)
          ∨ (row, i) ∈ keptRows rows) ∧
    (∀ (rows : List CarriedRow) (i : ℕ) (row : CarriedRow) (k : Text), rows[i]? = some row →
        row.latestKey = some k → (∀ r ∈ rows.drop (i + 1), r.latestKey ≠ some k) →
        (row, i) ∈ keptRows rows) ∧
    (∀ (rows : List CarriedRow) (i : ℕ) (row : CarriedRow) (m : PlanOnlyMarker), rows[i]? = some row →
        planOnlyMarker row = some m → '\x00' ∉ m.prUrl → '\x00' ∉ m.headSha → (row, i) ∉ keptRows rows →
        (∃ p ∈ keptRows rows, p.1.Marks m.prUrl m.headSha) ∨
          ((planOnlyReviewMarkers rows (keptRows rows)).filter
            (PlanOnlyMarker.isFor m.prUrl m.headSha)).length = 1) := by
  refine ⟨pruneCarriedRows_append, ?_, ?_, ?_⟩
  · intro rows i row key hrow hkey hmerged hclosed
    by_cases hlater : ∃ k, row.latestKey = some k ∧ ∃ r ∈ rows.drop (i + 1), r.latestKey = some k
    · exact Or.inl hlater
    · right
      rw [mem_keptRows hrow]
      apply carriesBefore_of_open hkey hmerged hclosed
      intro k hk r hr heq
      exact hlater ⟨k, hk, r, hr, heq⟩
  · intro rows i row k hrow hk hlast
    rw [mem_keptRows hrow]
    exact carriesBefore_of_latest hk hlast
  · intro rows i row m hrow hm hu hh hdropped
    exact length_planOnlyReviewMarkers hrow hm hu hh hdropped

/-! ### Rows of one pull request -/

def prUrlOne : Text := "https://github.com/a/b/pull/1".toList

def carriedRow (step : String) (fields : List (String × Json)) : CarriedRow :=
  ⟨some (fields.map fun f => (f.1.toList, f.2)), some step.toList⟩

/-- A plan-only review. -/
def planReview (url : Text) (head : String) : CarriedRow :=
  carriedRow "review.posted" [("pr_url", .str url), ("head_sha", .str head.toList), ("plan_only", .bool true)]

def mergeFact : CarriedRow := carriedRow "verdict.merged" [("pr_url", .str prUrlOne)]

/-- The review of a merged pull request is dropped, and one marker stands for it. -/
theorem prune_composes_merged :
    (planReview prUrlOne "x", 0) ∉ keptRows [planReview prUrlOne "x", mergeFact] ∧
      ((∃ p ∈ keptRows [planReview prUrlOne "x", mergeFact], p.1.Marks prUrlOne "x".toList) ∨
        ((planOnlyReviewMarkers [planReview prUrlOne "x", mergeFact]
          (keptRows [planReview prUrlOne "x", mergeFact])).filter
            (PlanOnlyMarker.isFor prUrlOne "x".toList)).length = 1) := by
  have hdropped : (planReview prUrlOne "x", 0) ∉ keptRows [planReview prUrlOne "x", mergeFact] := by
    rw [mem_keptRows rfl]
    decide +kernel
  refine ⟨hdropped, ?_⟩
  exact prune_composes.2.2.2 _ 0 (planReview prUrlOne "x") ⟨prUrlOne, "x".toList, none, none⟩ rfl rfl
    (by decide) (by decide) hdropped

def depDecision : CarriedRow :=
  carriedRow "dep-review.decided" [("task_id", .str "dep-review-PR1".toList), ("pr_url", .str prUrlOne)]

/-- A plan-only review whose url and head join to the key of another. -/
def joinedRows : List CarriedRow :=
  [planReview prUrlOne "x\x00y", planReview (prUrlOne ++ "\x00x".toList) "y", mergeFact]

theorem keptRows_joinedRows : keptRows joinedRows = [(mergeFact, 2)] := by
  have h0 : carries joinedRows (planReview prUrlOne "x\x00y") 0 = false := by decide +kernel
  have h1 : carries joinedRows (planReview (prUrlOne ++ "\x00x".toList) "y") 1 = false := by decide +kernel
  have h2 : carries joinedRows mergeFact 2 = true := by decide +kernel
  have hrows : joinedRows.zipIdx = [(planReview prUrlOne "x\x00y", 0),
    (planReview (prUrlOne ++ "\x00x".toList) "y", 1), (mergeFact, 2)] := rfl
  rw [keptRows, hrows]
  simp only [List.filter_cons, List.filter_nil, h0, h1, h2]
  rfl

/-- An earlier decision on an open pull request is dropped for a later one; and of two reviews whose
urls and heads join to one key, only the first leaves a marker. -/
theorem superseded_row_dropped :
    (depDecision.prKey = some "a/b#1".toList ∧ mergedKeys [depDecision, depDecision] = []
      ∧ (∀ r ∈ [depDecision], r.closedKey = none)
      ∧ (depDecision, 0) ∉ keptRows [depDecision, depDecision]) ∧
    (planOnlyMarker (planReview (prUrlOne ++ "\x00x".toList) "y")
        = some ⟨prUrlOne ++ "\x00x".toList, "y".toList, none, none⟩
      ∧ joinedRows[1]? = some (planReview (prUrlOne ++ "\x00x".toList) "y")
      ∧ (planReview (prUrlOne ++ "\x00x".toList) "y", 1) ∉ keptRows joinedRows
      ∧ (¬ ∃ p ∈ keptRows joinedRows, p.1.Marks (prUrlOne ++ "\x00x".toList) "y".toList)
      ∧ (planOnlyReviewMarkers joinedRows (keptRows joinedRows)).filter
          (PlanOnlyMarker.isFor (prUrlOne ++ "\x00x".toList) "y".toList) = []) := by
  refine ⟨⟨by decide +kernel, by decide +kernel, ?_, ?_⟩, rfl, rfl, ?_, ?_, ?_⟩
  · intro r hr
    rw [List.mem_singleton.mp hr]
    decide +kernel
  · rw [mem_keptRows rfl]
    decide +kernel
  · rw [keptRows_joinedRows]
    intro h
    have hplace := congrArg Prod.snd (List.mem_singleton.mp h)
    revert hplace
    decide
  · rw [keptRows_joinedRows]
    rintro ⟨p, hp, hstep, -⟩
    rw [List.mem_singleton.mp hp] at hstep
    revert hstep
    decide
  · rw [keptRows_joinedRows]
    rfl

end Remudero.Ledger
