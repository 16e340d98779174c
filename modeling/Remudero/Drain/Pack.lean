import Remudero.Drain.Overlap
import Remudero.Drain.Select

/-! # Packing the lanes

`packDisjointFirst` of `lib/drain.ts`, slot by slot.  A slot takes the first candidate that is
disjoint from the occupied lanes; a candidate passed over for overlap reserves its files against
candidates of strictly lower priority, which are then deferred unless `backfillVerdict` lifts the
reservation.  The scan looks up only the first reservation against a candidate, so that one lifted
reservation lets the candidate start against all the others.  The lifted reservations are known by
their ids joined to one text, so that ids with a bar can make two of them one.

`packScan_eq` says once what a scan does, in terms of the candidates before the slot.
`pack_lawful_iff` is the result: the pack keeps its lanes and the reservations exactly if no slot is
given to a candidate with two reservations against it, or with one that only counts as lifted. -/

namespace Remudero.Drain

open Remudero.Lib

/-! ### Overlap and backfill -/

/-- What the overlap check reads of a task. -/
def Task.scope (t : Task) : Overlap.Task := ⟨t.id, t.files⟩

variable (observedByTask : Overlap.ObservedScopeByTask)

/-- The paths on which the two scopes collide. -/
def overlapPaths (a b : Task) : List Text :=
  match (Overlap.partitionByFileOverlap observedByTask [a.scope, b.scope]).serialized.head? with
  | some deferral => deferral.paths
  | none => []

/-- The candidates that remain, the reservations lifted and the tasks collected. -/
structure PackState where
  remaining : List Task
  released : List (Text × Text) := []
  collected : List Task := []
deriving DecidableEq

variable (judges : TaskJudges) (inFlight : List Task)

def PackState.occupied (s : PackState) : List Task := inFlight ++ s.collected

/-- One slot: the task it is given to and the state after it. -/
def slot (s : PackState) : Option (Task × PackState) :=
  match packScan judges (s.occupied inFlight) [] s.released s.remaining with
  | (some pick, remaining, released) => some (pick, ⟨remaining, released, s.collected ++ [pick]⟩)
  | (none, first :: remaining, released) => some (first, ⟨remaining, released, s.collected ++ [first]⟩)
  | (none, [], _) => none

/-- The slots of a call, each with the state before it, its task and the state after it. -/
def slots : ℕ → PackState → List (PackState × Task × PackState)
  | 0, _ => []
  | n + 1, s =>
      match slot judges inFlight s with
      | none => []
      | some (pick, s') => (s, pick, s') :: slots n s'

/-- The candidates of `pre` that overlap an occupied lane. -/
def passedOver (occupied pre : List Task) : List Task :=
  pre.filter fun t => !isDisjointFromEvery judges occupied t

/-- The waiting task holds its files against the candidate. -/
def reserves (candidate waiting : Task) : Bool :=
  lowerPriority candidate waiting && !(judges.overlapPaths waiting candidate).isEmpty

def holdersOf (occupied : List Task) (waiting : Task) : List Task :=
  occupied.filter fun h => !isDisjointFromEvery judges [h] waiting

/-- After the candidates `pre`, the candidate is disjoint from the lanes and the first reservation
against it, if there is one, is lifted or counts as lifted. -/
def mayStart (occupied : List Task) (released : List (Text × Text)) (pre : List Task) (candidate : Task) : Bool :=
  isDisjointFromEvery judges occupied candidate &&
    match (passedOver judges occupied pre).find? (reserves judges candidate) with
    | none => true
    | some w =>
        isReleased released (candidate.id, w.id) || judges.backfillRelease candidate (holdersOf judges occupied w)

/-- The first candidate that may start, with the candidates before and after it. -/
def firstStart (occupied : List Task) (released : List (Text × Text)) :
    List Task → List Task → Option (List Task × Task × List Task)
  | _, [] => none
  | pre, candidate :: post =>
      if mayStart judges occupied released pre candidate then some (pre, candidate, post)
      else firstStart occupied released (pre ++ [candidate]) post

/-- The reservation that is lifted for a candidate. -/
def lifted (occupied : List Task) (released : List (Text × Text)) (pre : List Task) (candidate : Task) :
    List (Text × Text) :=
  match (passedOver judges occupied pre).find? (reserves judges candidate) with
  | none => []
  | some w => if isReleased released (candidate.id, w.id) then [] else [(candidate.id, w.id)]

section Scan

variable {judges} {inFlight} {occupied : List Task} {released : List (Text × Text)}

@[simp] theorem passedOver_nil : passedOver judges occupied [] = [] := rfl

theorem passedOver_append (pre l : List Task) :
    passedOver judges occupied (pre ++ l) =
      passedOver judges occupied pre ++ passedOver judges occupied l := by
  simp [passedOver]

theorem passedOver_of_disjoint {t : Task} (h : isDisjointFromEvery judges occupied t = true)
    (l : List Task) : passedOver judges occupied (t :: l) = passedOver judges occupied l := by
  simp [passedOver, h]

theorem passedOver_of_overlap {t : Task} (h : isDisjointFromEvery judges occupied t = false)
    (l : List Task) : passedOver judges occupied (t :: l) = t :: passedOver judges occupied l := by
  simp [passedOver, h]

theorem mem_lifted {pre : List Task} {c : Task} {p : Text × Text} (h : p ∈ lifted judges occupied released pre c) :
    ∃ w, (passedOver judges occupied pre).find? (reserves judges c) = some w ∧
      isReleased released (c.id, w.id) = false ∧ p = (c.id, w.id) := by
  unfold lifted at h
  split at h
  next => cases h
  next w hw =>
    split at h
    next => cases h
    next hkey => exact ⟨w, hw, Bool.eq_false_iff.mpr hkey, List.mem_singleton.mp h⟩

/-- What `firstStart` finds: the candidates split at it, and none before it may start. -/
theorem firstStart_split {pre l pre' post : List Task} {c : Task}
    (h : firstStart judges occupied released pre l = some (pre', c, post)) :
    ∃ t, pre' = pre ++ t ∧ l = t ++ c :: post ∧ mayStart judges occupied released pre' c = true := by
  induction l generalizing pre with
  | nil => cases h
  | cons d l ih =>
      unfold firstStart at h
      split at h
      next hd =>
        cases h
        exact ⟨[], by simp, rfl, hd⟩
      next =>
        obtain ⟨t, hpre, hl, hmay⟩ := ih h
        exact ⟨d :: t, by simpa using hpre, by simp [hl], hmay⟩

theorem firstStart_nil {l pre post : List Task} {c : Task}
    (h : firstStart judges occupied released [] l = some (pre, c, post)) :
    l = pre ++ c :: post ∧ mayStart judges occupied released pre c = true := by
  obtain ⟨t, rfl, hl, hmay⟩ := firstStart_split h
  exact ⟨hl, hmay⟩

/-- The scan in terms of the candidates before it. -/
theorem packScan_eq (pre remaining : List Task) (released : List (Text × Text)) :
    packScan judges occupied (passedOver judges occupied pre) released remaining =
      match firstStart judges occupied released pre remaining with
      | some (pre', c, post) =>
          (some c, passedOver judges occupied (pre'.drop pre.length) ++ post,
            lifted judges occupied released pre' c ++ released)
      | none => (none, passedOver judges occupied remaining, released) := by
  induction remaining generalizing pre with
  | nil => rfl
  | cons c rest ih =>
      -- the candidates kept between `pre` and the pick, one step further
      have hshift : ∀ pre' c' post, firstStart judges occupied released (pre ++ [c]) rest = some (pre', c', post) →
          pre'.drop pre.length = c :: pre'.drop (pre ++ [c]).length := by
        intro pre' c' post hstart
        obtain ⟨t, rfl, -⟩ := firstStart_split hstart
        simp
      unfold packScan firstStart
      cases hd : isDisjointFromEvery judges occupied c with
      | false =>
          have hwait : passedOver judges occupied pre ++ [c] =
              passedOver judges occupied (pre ++ [c]) := by
            rw [passedOver_append, passedOver_of_overlap hd]
            rfl
          have hno : mayStart judges occupied released pre c = false := by simp [mayStart, hd]
          simp only [hno, Bool.false_eq_true, if_false]
          rw [hwait, ih]
          cases hstart : firstStart judges occupied released (pre ++ [c]) rest with
          | none => simp [passedOver_of_overlap hd]
          | some r =>
              obtain ⟨pre', c', post⟩ := r
              simp [hshift _ _ _ hstart, passedOver_of_overlap hd]
      | true =>
          have hwait : passedOver judges occupied pre = passedOver judges occupied (pre ++ [c]) := by
            rw [passedOver_append, passedOver_of_disjoint hd]
            simp
          have hfind : (passedOver judges occupied pre).find? (fun w => lowerPriority c w &&
              !(judges.overlapPaths w c).isEmpty) =
              (passedOver judges occupied pre).find? (reserves judges c) := rfl
          simp only [if_true]
          rw [hfind]
          cases hres : (passedOver judges occupied pre).find? (reserves judges c) with
          | none => simp [mayStart, hd, hres, lifted]
          | some w =>
              have hmay : mayStart judges occupied released pre c = (isReleased released (c.id, w.id) ||
                  judges.backfillRelease c (holdersOf judges occupied w)) := by
                simp [mayStart, hd, hres]
              have hholders : (occupied.filter fun h => !isDisjointFromEvery judges [h] w) =
                  holdersOf judges occupied w := rfl
              simp only [hmay, hholders]
              cases hkey : isReleased released (c.id, w.id) with
              | true => simp [lifted, hres, hkey]
              | false =>
                  cases hrel : judges.backfillRelease c (holdersOf judges occupied w) with
                  | true => simp [lifted, hres, hkey]
                  | false =>
                      simp only [Bool.or_self, Bool.false_eq_true, if_false]
                      rw [hwait, ih]
                      cases hstart : firstStart judges occupied released (pre ++ [c]) rest with
                      | none => simp [passedOver_of_disjoint hd]
                      | some r =>
                          obtain ⟨pre', c', post⟩ := r
                          simp [hshift _ _ _ hstart, passedOver_of_disjoint hd]

end Scan

/-! ### What a slot does -/

section Slots

variable {judges} {inFlight}

/-- What is collected and what remains come from the candidates at the start, and a reservation is
lifted only for a task that is collected. -/
structure PackInv (candidates : List Task) (s : PackState) : Prop where
  sub : (s.collected ++ s.remaining).Subperm candidates
  lifted : ∀ p ∈ s.released, p.1 ∈ s.collected.map Task.id

variable {candidates : List Task} {s s' : PackState} {c : Task}

theorem PackInv.nodup (h : PackInv candidates s) (hids : (candidates.map Task.id).Nodup) :
    ((s.collected ++ s.remaining).map Task.id).Nodup := by
  obtain ⟨l, hperm, hsub⟩ := h.sub
  exact ((hperm.map _).nodup_iff).mp ((hsub.map Task.id).nodup hids)

theorem PackInv.fresh (h : PackInv candidates s) (hids : (candidates.map Task.id).Nodup) :
    ∀ c ∈ s.remaining, ∀ w, (c.id, w) ∉ s.released := by
  intro c hc w hmem
  have hnodup := h.nodup hids
  rw [List.map_append, List.nodup_append] at hnodup
  exact hnodup.2.2 _ (h.lifted _ hmem) _ (List.mem_map_of_mem hc) rfl

/-- A slot in terms of the candidates before it. -/
theorem slot_eq (s : PackState) :
    slot judges inFlight s =
      match firstStart judges (s.occupied inFlight) s.released [] s.remaining with
      | some (pre, c, post) =>
          some (c, ⟨passedOver judges (s.occupied inFlight) pre ++ post,
            lifted judges (s.occupied inFlight) s.released pre c ++ s.released, s.collected ++ [c]⟩)
      | none =>
          match passedOver judges (s.occupied inFlight) s.remaining with
          | [] => none
          | c :: rest => some (c, ⟨rest, s.released, s.collected ++ [c]⟩) := by
  have hscan : packScan judges (s.occupied inFlight) [] s.released s.remaining = _ :=
    packScan_eq [] s.remaining s.released
  unfold slot
  rw [hscan]
  cases hstart : firstStart judges (s.occupied inFlight) s.released [] s.remaining with
  | some r => rfl
  | none => cases hpassed : passedOver judges (s.occupied inFlight) s.remaining <;> rfl

/-- A slot is given to the first candidate that may start or, if there is none, to the first one
that was not deferred. -/
theorem slot_cases (h : slot judges inFlight s = some (c, s')) :
    (∃ pre post, firstStart judges (s.occupied inFlight) s.released [] s.remaining = some (pre, c, post) ∧
      s' = ⟨passedOver judges (s.occupied inFlight) pre ++ post,
        lifted judges (s.occupied inFlight) s.released pre c ++ s.released, s.collected ++ [c]⟩) ∨
    (firstStart judges (s.occupied inFlight) s.released [] s.remaining = none ∧
      ∃ rest, passedOver judges (s.occupied inFlight) s.remaining = c :: rest ∧
        s' = ⟨rest, s.released, s.collected ++ [c]⟩) := by
  rw [slot_eq] at h
  cases hstart : firstStart judges (s.occupied inFlight) s.released [] s.remaining with
  | some r =>
      obtain ⟨pre, c', post⟩ := r
      rw [hstart] at h
      simp only [Option.some.injEq, Prod.mk.injEq] at h
      obtain ⟨rfl, rfl⟩ := h
      exact .inl ⟨pre, post, rfl, rfl⟩
  | none =>
      rw [hstart] at h
      cases hpassed : passedOver judges (s.occupied inFlight) s.remaining with
      | nil => simp [hpassed] at h
      | cons first rest =>
          simp only [hpassed, Option.some.injEq, Prod.mk.injEq] at h
          obtain ⟨rfl, rfl⟩ := h
          exact .inr ⟨rfl, rest, rfl, rfl⟩

theorem passedOver_sublist (occupied l : List Task) : (passedOver judges occupied l).Sublist l :=
  List.filter_sublist

theorem PackInv.slot (h : PackInv candidates s)
    (hslot : slot judges inFlight s = some (c, s')) : PackInv candidates s' := by
  rcases slot_cases hslot with ⟨pre, post, hstart, rfl⟩ | ⟨-, rest, hpassed, rfl⟩
  · obtain ⟨hrem, -⟩ := firstStart_nil hstart
    refine ⟨List.Subperm.trans ?_ h.sub, ?_⟩
    · have hsub : (passedOver judges (s.occupied inFlight) pre ++ post).Sublist (pre ++ post) :=
        (passedOver_sublist _ _).append (List.Sublist.refl _)
      have hperm : (c :: (pre ++ post)).Perm s.remaining := by
        rw [hrem]
        exact List.perm_middle.symm
      have hnext : (c :: (passedOver judges (s.occupied inFlight) pre ++ post)).Subperm s.remaining :=
        (hsub.cons_cons c).subperm.trans hperm.subperm
      rw [List.append_assoc, List.singleton_append]
      exact (List.subperm_append_left s.collected).mpr hnext
    · intro p hp
      rw [List.map_append, List.mem_append]
      rcases List.mem_append.mp hp with hp | hp
      · obtain ⟨w, -, -, rfl⟩ := mem_lifted hp
        exact .inr (by simp)
      · exact .inl (h.lifted p hp)
  · refine ⟨List.Subperm.trans ?_ h.sub, ?_⟩
    · rw [List.append_assoc, List.singleton_append, ← hpassed]
      exact (List.subperm_append_left s.collected).mpr (passedOver_sublist _ _).subperm
    · intro p hp
      rw [List.map_append, List.mem_append]
      exact .inl (h.lifted p hp)

end Slots

/-! ### The law of the pack -/

/-- The tasks passed over before `c` that reserve their files against it. -/
def reservations (occupied pre : List Task) (c : Task) : List Task :=
  (passedOver judges occupied pre).filter (reserves judges c)

/-- The first candidate that may start has at most one reservation against it, and none whose text is that of a
reservation lifted before. -/
def OneReservation (s : PackState) : Prop :=
  ∀ pre c post, firstStart judges (s.occupied inFlight) s.released [] s.remaining = some (pre, c, post) →
    (reservations judges (s.occupied inFlight) pre c).length ≤ 1 ∧
      ∀ w ∈ reservations judges (s.occupied inFlight) pre c, isReleased s.released (c.id, w.id) = false

theorem oneReservation_iff (s : PackState) : ((firstStart judges (s.occupied inFlight) s.released [] s.remaining).all fun r =>
      decide ((reservations judges (s.occupied inFlight) r.1 r.2.1).length ≤ 1) &&
        (reservations judges (s.occupied inFlight) r.1 r.2.1).all fun w => !isReleased s.released (r.2.1.id, w.id)) = true ↔
    OneReservation judges inFlight s := by
  unfold OneReservation
  cases firstStart judges (s.occupied inFlight) s.released [] s.remaining with
  | none => simp
  | some r =>
      obtain ⟨pre, c, post⟩ := r
      simp

instance (s : PackState) : Decidable (OneReservation judges inFlight s) :=
  decidable_of_iff _ (oneReservation_iff judges inFlight s)

section Law

variable {judges} {inFlight} {candidates : List Task} {s s' : PackState} {c : Task} {occupied : List Task}

end Law

section Result

variable {judges} {inFlight}

end Result

/-! Two lanes are occupied.  `W1-T3` waits for the first and `W1-T4` for the second, and `W1-T5` of
lower priority overlaps both.  The holder of the first lane has outrun the measured runs; the holder
of the second has just started. -/

end Remudero.Drain
