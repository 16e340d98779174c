import Remudero.TaskId.LocalReservation

/-! # All or nothing of local reservations

`reserveTaskIdBlock` of `lib/task-id-reservation.ts`.  `stops` are the ids at which the scans of a
block stop, read off the directory before the call.  `Holding` is the invariant of a block under
way, `BlockEnd` says how one ends, and `Leaves` what a failed one leaves behind.

The main result is `local_reservation_exact`: exactly when a reservation ends with an id that no live
holder owned, and exactly when a block ends with all its ids or none. -/

namespace Remudero.TaskId

open Remudero.Lib

variable (os : Os) (dir : Text) (opts : ReserveTaskIdOpts)

/-! ### Releasing -/

/-- What `unlinkSync` leaves of an entry. -/
def unlinked (e : Option Entry) : Option Entry := e.filter fun e => !e.unlinks

theorem unlinked_unlinked (e : Option Entry) : unlinked (unlinked e) = unlinked e := by
  cases e with
  | none => rfl
  | some e => cases hu : e.unlinks <;> simp [unlinked, Option.filter, hu]

theorem release_eq (d : Directory) (h : TaskIdReservationHandle) :
    release d h = Function.update d h.path (unlinked (d h.path)) := by
  unfold release unlinked
  cases hd : d h.path with
  | none =>
      have hself : Function.update d h.path none = d := by rw [← hd, Function.update_eq_self]
      simp [hself]
  | some e =>
      cases hu : e.unlinks with
      | true => simp [Option.filter, hu]
      | false =>
          simp only [Bool.false_eq_true, if_false, Option.filter, hu, Bool.not_false, if_true]
          rw [← hd, Function.update_eq_self]

theorem releaseAll_of_ne (d : Directory) (handles : List TaskIdReservationHandle) {path : Text}
    (h : ∀ g ∈ handles, g.path ≠ path) : releaseAll d handles path = d path := by
  induction handles generalizing d with
  | nil => rfl
  | cons g gs ih =>
      have hg : release d g path = d path := by
        rw [release_eq, Function.update_of_ne (h g List.mem_cons_self).symm]
      rw [← hg]
      exact ih (release d g) fun g' hg' => h g' (List.mem_cons_of_mem g hg')

theorem releaseAll_of_mem (d : Directory) (handles : List TaskIdReservationHandle) {path : Text}
    (h : ∃ g ∈ handles, g.path = path) : releaseAll d handles path = unlinked (d path) := by
  induction handles generalizing d with
  | nil => simp at h
  | cons g gs ih =>
      change releaseAll (release d g) gs path = unlinked (d path)
      have hg : release d g path = if g.path = path then unlinked (d path) else d path := by
        rw [release_eq]
        split
        · rename_i hp
          rw [← hp, Function.update_self]
        · rename_i hp
          rw [Function.update_of_ne (Ne.symm hp)]
      by_cases hgs : ∃ g' ∈ gs, g'.path = path
      · rw [ih (release d g) hgs, hg]
        split
        · exact unlinked_unlinked (d path)
        · rfl
      · have hp : g.path = path := by
          obtain ⟨g', hmem, hg'⟩ := h
          obtain rfl | hmem := List.mem_cons.mp hmem
          · exact hg'
          · exact absurd ⟨g', hmem, hg'⟩ hgs
        rw [releaseAll_of_ne (release d g) gs (by simpa using hgs), hg, if_pos hp]

/-! ### The ids of a block -/

/-- The ids at which the scans of a block stop, up to the first that cannot be taken. -/
def stops (d : Directory) : ℕ → ℕ → List ℕ
  | 0, _ => []
  | count + 1, next =>
      match scanStop os dir opts d next with
      | none => []
      | some id => if Takes os dir id then id :: stops d count (id + 1) else [id]

/-- What a block that ends answers. -/
def reservedBlock : ℕ → ℕ → List TaskIdReservationHandle → Directory → ReservedBlock
  | 0, _, handles, d => (.ok handles, d)
  | count + 1, next, handles, d =>
      match reserved os dir opts d next with
      | (.error e, d') => (.error (.reservation e), releaseAll d' handles)
      | (.ok h, d') => reservedBlock count (h.id + 1) (handles ++ [h]) d'

section block

variable {os dir opts} {c d : Directory} {next count : ℕ} {handles : List TaskIdReservationHandle}

theorem stopWithin_congr {n id : ℕ}
    (h : ∀ i, id ≤ i → c (taskIdReservationPath dir i) = d (taskIdReservationPath dir i)) :
    stopWithin os dir opts c n id = stopWithin os dir opts d n id := by
  induction n generalizing id with
  | zero => rfl
  | succ n ih =>
      have hp : passes os dir opts c id = passes os dir opts d id := by
        simp only [passes, Directory.live, h id le_rfl]
      rw [stopWithin, stopWithin, hp, ih fun i hi => h i (by omega)]

theorem stops_congr
    (h : ∀ i, next ≤ i → c (taskIdReservationPath dir i) = d (taskIdReservationPath dir i)) :
    stops os dir opts c count next = stops os dir opts d count next := by
  induction count generalizing next with
  | zero => rfl
  | succ count ih =>
      have hs : scanStop os dir opts c next = scanStop os dir opts d next := stopWithin_congr h
      rw [stops, stops, hs]
      cases ht : scanStop os dir opts d next with
      | none => rfl
      | some id =>
          have hle : next ≤ id := (stopWithin_some ht).1
          have hrest : stops os dir opts c count (id + 1) = stops os dir opts d count (id + 1) :=
            ih fun i hi => h i (by omega)
          simp only [hrest]

theorem stuck_congr {id : ℕ} (h : c (taskIdReservationPath dir id) = d (taskIdReservationPath dir id)) :
    Stuck os dir c id ↔ Stuck os dir d id := by
  unfold Stuck
  rw [h]

theorem mem_stops {id : ℕ} (h : id ∈ stops os dir opts d count next) :
    next ≤ id ∧ passes os dir opts d id = false := by
  induction count generalizing next with
  | zero => simp [stops] at h
  | succ count ih =>
      rw [stops] at h
      cases ht : scanStop os dir opts d next with
      | none => simp [ht] at h
      | some t =>
          obtain ⟨hle, -, hp⟩ := stopWithin_some ht
          simp only [ht] at h
          split at h
          · obtain rfl | h := List.mem_cons.mp h
            · exact ⟨hle, hp⟩
            · have := ih h
              exact ⟨by omega, this.2⟩
          · obtain rfl := List.mem_singleton.mp h
            exact ⟨hle, hp⟩

theorem taken_above {id i : ℕ} (h : id < i) :
    taken os dir opts d id (taskIdReservationPath dir i) = d (taskIdReservationPath dir i) := by
  apply Function.update_of_ne
  intro heq
  have := taskIdReservationPath_injective dir heq
  omega

theorem reserved_of_stop {id : ℕ} (hm : os.mkdirError = none) (h : scanStop os dir opts d next = some id) :
    reserved os dir opts d next = settle os dir opts d id := by
  simp [reserved, hm, h]

/-- After an id is taken the later stops are where they were. -/
theorem stops_after {id : ℕ} :
    stops os dir opts (taken os dir opts d id) count (id + 1) = stops os dir opts d count (id + 1) :=
  stops_congr fun _ hi => taken_above (by omega)

theorem stops_of_takes {id : ℕ} (hs : scanStop os dir opts d next = some id) (ht : Takes os dir id) :
    stops os dir opts d (count + 1) next = id :: stops os dir opts d count (id + 1) := by
  simp [stops, hs, ht]

theorem stops_of_not_takes {id : ℕ} (hs : scanStop os dir opts d next = some id) (ht : ¬ Takes os dir id) :
    stops os dir opts d (count + 1) next = [id] := by
  simp [stops, hs, ht]

theorem reserveBlockFrom_stuck (hm : os.mkdirError = none)
    (h : ∃ id ∈ stops os dir opts d count next, Stuck os dir d id) (fuel : ℕ) :
    reserveBlockFrom os dir opts fuel count next handles d = none := by
  induction count generalizing next handles d with
  | zero => simp [stops] at h
  | succ count ih =>
      obtain ⟨id, hid, hstuck⟩ := h
      rw [reserveBlockFrom]
      cases hr : reserveTaskIdFrom os dir opts fuel next d with
      | none => rfl
      | some r =>
          obtain ⟨hclear, rfl⟩ := reserveTaskIdFrom_eq hr
          cases hs : scanStop os dir opts d next with
          | none => simp [stops, hs] at hid
          | some t =>
              -- the first stop is not stuck, so the stuck one is a later stop
              have hfree := hclear hm t hs
              have htakes : Takes os dir t := by
                by_contra hn
                rw [stops_of_not_takes hs hn, List.mem_singleton] at hid
                exact hfree (hid ▸ hstuck)
              rw [stops_of_takes hs htakes, List.mem_cons] at hid
              obtain rfl | hid := hid
              · exact absurd hstuck hfree
              · rw [reserved_of_stop hm hs, settle_of_takes htakes]
                refine ih ⟨id, ?_, ?_⟩
                · rw [handleOf, stops_after]
                  exact hid
                · rw [stuck_congr (taken_above (mem_stops hid).1)]
                  exact hstuck

theorem reserved_ok {g : TaskIdReservationHandle} {d' : Directory}
    (h : reserved os dir opts d next = (.ok g, d')) :
    ∃ id, scanStop os dir opts d next = some id ∧ Takes os dir id ∧ g = handleOf dir opts id ∧
      d' = taken os dir opts d id := by
  unfold reserved at h
  cases hm : os.mkdirError with
  | some e => simp [hm] at h
  | none =>
      cases hs : scanStop os dir opts d next with
      | none => simp [hm, hs] at h
      | some id =>
          simp only [hm, hs] at h
          by_cases hw : Written os dir id
          · by_cases ht : Takes os dir id
            · rw [settle_of_takes ht, Prod.mk.injEq, Except.ok.injEq] at h
              exact ⟨id, rfl, ht, h.1.symm, h.2.symm⟩
            · obtain ⟨e, he⟩ := @settle_of_written os dir opts d id hw ht
              simp [he] at h
          · obtain ⟨e, d'', he, -⟩ := @settle_of_not_written os dir opts d id hw
            simp [he] at h

theorem reserveBlockFrom_ends (h : os.mkdirError = none → ∀ id ∈ stops os dir opts d count next, ¬ Stuck os dir d id) :
    ∃ least, ∀ fuel, least ≤ fuel → reserveBlockFrom os dir opts fuel count next handles d =
      some (reservedBlock os dir opts count next handles d) := by
  induction count generalizing next handles d with
  | zero => exact ⟨0, fun _ _ => rfl⟩
  | succ count ih =>
      have hclear : ScanClears os dir opts d next := by
        intro hm id hs
        apply h hm id
        by_cases ht : Takes os dir id
        · rw [stops_of_takes hs ht]
          exact List.mem_cons_self
        · rw [stops_of_not_takes hs ht]
          exact List.mem_singleton_self id
      obtain ⟨first, hfirst⟩ := reserveTaskIdFrom_ends hclear
      have hfrom : ∀ fuel, first ≤ fuel → reserveTaskIdFrom os dir opts fuel next d = some (reserved os dir opts d next) :=
        fun fuel hle => reserveTaskIdFrom_mono hle hfirst
      simp only [reserveBlockFrom, reservedBlock]
      cases hr : reserved os dir opts d next with
      | mk r d' =>
          simp only [hr] at hfrom
          cases r with
          | error e => exact ⟨first, fun fuel hle => by simp only [hfrom fuel hle]⟩
          | ok g =>
              obtain ⟨id, hs, ht, rfl, rfl⟩ := reserved_ok hr
              have hrest : os.mkdirError = none → ∀ i ∈ stops os dir opts (taken os dir opts d id) count (id + 1),
                  ¬ Stuck os dir (taken os dir opts d id) i := by
                intro hm i hi
                rw [stops_after] at hi
                rw [stuck_congr (taken_above (mem_stops hi).1)]
                apply h hm i
                rw [stops_of_takes hs ht]
                exact List.mem_cons_of_mem id hi
              obtain ⟨later, hlater⟩ := ih hrest
              refine ⟨max first later, fun fuel hle => ?_⟩
              simp only [hfrom fuel (le_trans (le_max_left _ _) hle)]
              exact hlater fuel (le_trans (le_max_right _ _) hle)

/-- What a block has done to the directory `d` when it holds `handles` and goes on from `next`. -/
structure Holding (os : Os) (dir : Text) (opts : ReserveTaskIdOpts) (d c : Directory)
    (handles : List TaskIdReservationHandle) (next : ℕ) : Prop where
  increasing : (handles.map (·.id)).Pairwise (· < ·)
  below : ∀ h ∈ handles, h.id < next
  own : ∀ h ∈ handles, h = handleOf dir opts h.id ∧ Takes os dir h.id ∧
    d.live opts (taskIdReservationPath dir h.id) = false ∧
    c (taskIdReservationPath dir h.id) = some (ownEntry os dir opts h.id)
  other : ∀ path, (∀ h ∈ handles, h.path ≠ path) → c path = d path

theorem Holding.start : Holding os dir opts d d [] next where
  increasing := List.Pairwise.nil
  below := by simp
  own := by simp
  other := fun _ _ => rfl

theorem Holding.path_ne {h : TaskIdReservationHandle} {id : ℕ} (hc : Holding os dir opts d c handles next)
    (hmem : h ∈ handles) (hid : next ≤ id) : h.path ≠ taskIdReservationPath dir id := by
  have hpath : h.path = taskIdReservationPath dir h.id := congrArg (·.path) (hc.own h hmem).1
  intro heq
  have hlt := hc.below h hmem
  have := taskIdReservationPath_injective dir (hpath.symm.trans heq)
  omega

theorem Holding.idPath_ne {h : TaskIdReservationHandle} {id : ℕ} (hc : Holding os dir opts d c handles next)
    (hmem : h ∈ handles) (hid : next ≤ id) : taskIdReservationPath dir h.id ≠ taskIdReservationPath dir id := by
  have hpath := hc.path_ne hmem hid
  rwa [congrArg (·.path) (hc.own h hmem).1] at hpath

/-- Above the ids taken the directory is as it was. -/
theorem Holding.above {id : ℕ} (hc : Holding os dir opts d c handles next) (hid : next ≤ id) :
    c (taskIdReservationPath dir id) = d (taskIdReservationPath dir id) :=
  hc.other _ fun _ hmem => hc.path_ne hmem hid

theorem Holding.scanStop_eq (hc : Holding os dir opts d c handles next) :
    scanStop os dir opts c next = scanStop os dir opts d next :=
  stopWithin_congr fun _ hi => hc.above hi

theorem Holding.snoc {id : ℕ} (hc : Holding os dir opts d c handles next)
    (hs : scanStop os dir opts d next = some id) (ht : Takes os dir id) :
    Holding os dir opts d (taken os dir opts c id) (handles ++ [handleOf dir opts id]) (id + 1) := by
  obtain ⟨hle, -, hp⟩ := stopWithin_some hs
  have hlast : ∀ h ∈ handles ++ [handleOf dir opts id], h ∈ handles ∨ h = handleOf dir opts id := by
    simp
  refine ⟨?_, ?_, ?_, ?_⟩
  · rw [List.map_append, List.pairwise_append]
    refine ⟨hc.increasing, by simp, ?_⟩
    intro i hi j hj
    obtain ⟨h, hmem, rfl⟩ := List.mem_map.mp hi
    obtain rfl : j = id := by simpa [handleOf] using hj
    have := hc.below h hmem
    omega
  · intro h hmem
    obtain hmem | rfl := hlast h hmem
    · have := hc.below h hmem
      omega
    · exact Nat.lt_succ_self id
  · intro h hmem
    obtain hmem | rfl := hlast h hmem
    · obtain ⟨hof, htakes, hlive, hown⟩ := hc.own h hmem
      refine ⟨hof, htakes, hlive, ?_⟩
      rw [taken, Function.update_of_ne (hc.idPath_ne hmem hle)]
      exact hown
    · exact ⟨rfl, ht, not_live_of_stop hp ht.1.1, Function.update_self _ _ _⟩
  · intro path hne
    have hpath : path ≠ taskIdReservationPath dir id := (hne (handleOf dir opts id) (by simp)).symm
    rw [taken, Function.update_of_ne hpath]
    exact hc.other path fun h hmem => hne h (List.mem_append_left _ hmem)

/-- How a block ends: with every id, with a window without a free id, or with an id that fails. -/
inductive BlockEnd (os : Os) (dir : Text) (opts : ReserveTaskIdOpts) (d : Directory) (ids : List ℕ) (count : ℕ) :
    ReservedBlock → Prop
  | held {handles : List TaskIdReservationHandle} {c : Directory} {next : ℕ}
      (hc : Holding os dir opts d c handles next) (hids : handles.map (·.id) = ids)
      (hcount : handles.length = count) : BlockEnd os dir opts d ids count (.ok handles, c)
  | exhausted {handles : List TaskIdReservationHandle} {c : Directory} {next : ℕ} (e : BlockError)
      (hc : Holding os dir opts d c handles next) (hids : handles.map (·.id) = ids)
      (hcount : handles.length < count) : BlockEnd os dir opts d ids count (.error e, releaseAll c handles)
  | failed {handles : List TaskIdReservationHandle} {c : Directory} {next id : ℕ} (e : BlockError)
      (hc : Holding os dir opts d c handles next) (hids : handles.map (·.id) ++ [id] = ids)
      (hs : scanStop os dir opts d next = some id) (ht : ¬ Takes os dir id) :
      BlockEnd os dir opts d ids count (.error e, releaseAll (settle os dir opts c id).2 handles)

theorem settle_error {id : ℕ} (ht : ¬ Takes os dir id) :
    ∃ e, settle os dir opts d id = (.error (reservationFailed dir id e), (settle os dir opts d id).2) := by
  by_cases hw : Written os dir id
  · obtain ⟨e, he⟩ := @settle_of_written os dir opts d id hw ht
    exact ⟨e, by rw [he]⟩
  · obtain ⟨e, d', he, -⟩ := @settle_of_not_written os dir opts d id hw
    exact ⟨e, by rw [he]⟩

theorem reservedBlock_end (hm : os.mkdirError = none) (hc : Holding os dir opts d c handles next) :
    BlockEnd os dir opts d (handles.map (·.id) ++ stops os dir opts d count next) (handles.length + count)
      (reservedBlock os dir opts count next handles c) := by
  induction count generalizing next handles c with
  | zero => exact BlockEnd.held hc (by simp [stops]) rfl
  | succ count ih =>
      rw [reservedBlock]
      cases hs : scanStop os dir opts d next with
      | none =>
          have hr : reserved os dir opts c next = (.error (reservationExhausted dir opts next), c) := by
            simp [reserved, hm, hc.scanStop_eq, hs]
          rw [hr]
          exact BlockEnd.exhausted _ hc (by simp [stops, hs]) (by omega)
      | some id =>
          have hr : reserved os dir opts c next = settle os dir opts c id := by
            exact reserved_of_stop hm (hc.scanStop_eq.trans hs)
          rw [hr]
          by_cases ht : Takes os dir id
          · have hnext := ih (hc.snoc hs ht)
            rw [settle_of_takes ht, stops_of_takes hs ht]
            have hcount : handles.length + (count + 1) = (handles ++ [handleOf dir opts id]).length + count := by
              rw [List.length_append, List.length_singleton]
              omega
            have hids : handles.map (·.id) ++ id :: stops os dir opts d count (id + 1) =
                (handles ++ [handleOf dir opts id]).map (·.id) ++ stops os dir opts d count (id + 1) := by
              simp [handleOf]
            rw [hcount, hids]
            exact hnext
          · obtain ⟨e, he⟩ := @settle_error os dir opts c id ht
            rw [he, stops_of_not_takes hs ht]
            exact BlockEnd.failed _ hc rfl hs ht

end block

/-! ### Termination, and all or nothing -/

/-- The call ends, with an error or with an id of its window that no live holder owned. -/
def EndsFree (d : Directory) (startId : ℕ) : Prop :=
  ∃ fuel r d', reserveTaskIdFrom os dir opts fuel startId d = some (r, d') ∧
    ∀ h, r = .ok h → startId ≤ h.id ∧ h.id < startId + opts.maxScan ∧
      d.live opts (taskIdReservationPath dir h.id) = false

/-- The directory holds `count` new reservations of this process, at increasing ids that no live
holder owned, and otherwise no live holder it had not before. -/
def HoldsAll (d : Directory) (count : ℤ) (handles : List TaskIdReservationHandle) (d' : Directory) : Prop :=
  (handles.length : ℤ) = count ∧ (handles.map (·.id)).Pairwise (· < ·) ∧
    (∀ h ∈ handles, h.path = taskIdReservationPath dir h.id ∧ d.live opts h.path = false ∧
      d' h.path = some (ownEntry os dir opts h.id)) ∧
    ∀ path, d'.live opts path = true → d' path = d path ∨ ∃ h ∈ handles, h.path = path

/-- The directory has no live holder that it had not before. -/
def HoldsNone (d d' : Directory) : Prop := ∀ path, d'.live opts path = true → d' path = d path

def HoldsAllOrNone (d : Directory) (count : ℤ) : ReservedBlock → Prop
  | (.ok handles, d') => HoldsAll os dir opts d count handles d'
  | (.error _, d') => HoldsNone opts d d'

/-- The call ends, holding all ids of the block or, on an error, none. -/
def AllOrNothing (d : Directory) (startId : ℕ) (count : ℤ) : Prop :=
  ∃ fuel r, reserveTaskIdBlock os dir opts fuel startId count d = some r ∧ HoldsAllOrNone os dir opts d count r

/-- Every id of the block is taken. -/
def Completes (d : Directory) (startId count : ℕ) : Prop :=
  (stops os dir opts d count startId).length = count ∧ ∀ id ∈ stops os dir opts d count startId, Takes os dir id

/-- A file this process writes can be closed and unlinked again, or its pid does not count as
alive. -/
def GivesBack (d : Directory) (startId count : ℕ) : Prop :=
  opts.isPidAlive (Nat.toDigits 10 opts.pid) = true → ∀ id ∈ stops os dir opts d count startId, Written os dir id →
    Takes os dir id ∧ os.unlinksOwn (taskIdReservationPath dir id) = true

def BlockClears (d : Directory) (startId : ℕ) (count : ℤ) : Prop :=
  1 ≤ count → os.mkdirError = none →
    (∀ id ∈ stops os dir opts d count.toNat startId, ¬ Stuck os dir d id) ∧
      (Completes os dir opts d startId count.toNat ∨ GivesBack os dir opts d startId count.toNat)

section exactness

variable {os dir opts} {c d d' : Directory} {next : ℕ} {handles : List TaskIdReservationHandle}

theorem endsFree_iff {startId : ℕ} : EndsFree os dir opts d startId ↔ ScanClears os dir opts d startId := by
  constructor
  · rintro ⟨fuel, r, d', hr, -⟩
    exact (reserveTaskIdFrom_eq hr).1
  · intro hclear
    obtain ⟨fuel, hr⟩ := reserveTaskIdFrom_ends hclear
    refine ⟨fuel, _, _, hr, ?_⟩
    intro h hok
    obtain ⟨id, hs, ht, rfl, -⟩ := reserved_ok (Prod.ext hok rfl)
    obtain ⟨hle, hlt, hp⟩ := stopWithin_some hs
    exact ⟨hle, hlt, not_live_of_stop hp ht.1.1⟩

/-- What a failed block leaves of the ids at which it stopped: exactly the written files that could
not be closed or unlinked. -/
structure Leaves (os : Os) (dir : Text) (opts : ReserveTaskIdOpts) (d d' : Directory) (ids : List ℕ) : Prop where
  kept : ∀ id ∈ ids, Written os dir id → ¬ (Takes os dir id ∧ os.unlinksOwn (taskIdReservationPath dir id) = true) →
    d' (taskIdReservationPath dir id) = some (ownEntry os dir opts id)
  rest : ∀ path, d' path = d path ∨ d'.live opts path = false ∨
    ∃ id ∈ ids, Written os dir id ∧ ¬ (Takes os dir id ∧ os.unlinksOwn (taskIdReservationPath dir id) = true) ∧
      d' path = some (ownEntry os dir opts id)

theorem releaseAll_own (hc : Holding os dir opts d c handles next)
    (hown : ∀ h ∈ handles, d' (taskIdReservationPath dir h.id) = some (ownEntry os dir opts h.id)) :
    ∀ h ∈ handles, releaseAll d' handles (taskIdReservationPath dir h.id) =
      if os.unlinksOwn (taskIdReservationPath dir h.id) then none else some (ownEntry os dir opts h.id) := by
  intro h hmem
  have hpath : h.path = taskIdReservationPath dir h.id := congrArg (·.path) (hc.own h hmem).1
  rw [releaseAll_of_mem d' handles ⟨h, hmem, hpath⟩, hown h hmem]
  cases hu : os.unlinksOwn (taskIdReservationPath dir h.id) <;> simp [unlinked, Option.filter, ownEntry, hu]

/-- Releasing turns what holds of the files that are no handle's into what holds of all. -/
theorem leaves_releaseAll {extra : List ℕ} (hc : Holding os dir opts d c handles next)
    (hown : ∀ h ∈ handles, d' (taskIdReservationPath dir h.id) = some (ownEntry os dir opts h.id))
    (habove : ∀ id ∈ extra, next ≤ id)
    (hkept : ∀ id ∈ extra, Written os dir id → d' (taskIdReservationPath dir id) = some (ownEntry os dir opts id))
    (hrest : ∀ path, (∀ h ∈ handles, h.path ≠ path) → d' path = d path ∨ d'.live opts path = false ∨
      ∃ id ∈ extra, Written os dir id ∧ ¬ Takes os dir id ∧ d' path = some (ownEntry os dir opts id)) :
    Leaves os dir opts d (releaseAll d' handles) (handles.map (·.id) ++ extra) := by
  have hreleased := releaseAll_own hc hown
  refine ⟨?_, ?_⟩
  · intro id hid hw hnot
    obtain hid | hid := List.mem_append.mp hid
    · obtain ⟨h, hmem, rfl⟩ := List.mem_map.mp hid
      have hu : ¬ os.unlinksOwn (taskIdReservationPath dir h.id) = true := fun hu => hnot ⟨(hc.own h hmem).2.1, hu⟩
      rw [hreleased h hmem, if_neg hu]
    · rw [releaseAll_of_ne d' handles fun h hmem => hc.path_ne hmem (habove id hid)]
      exact hkept id hid hw
  · intro path
    by_cases hpath : ∃ h ∈ handles, h.path = path
    · obtain ⟨h, hmem, rfl⟩ := hpath
      obtain ⟨hof, ht, -, -⟩ := hc.own h hmem
      have hp : h.path = taskIdReservationPath dir h.id := congrArg (·.path) hof
      have hr := hreleased h hmem
      rw [← hp] at hr
      split at hr
      · exact Or.inr (Or.inl (by simp [Directory.live, hr]))
      · rename_i hu
        rw [hp] at hu
        have hid : h.id ∈ handles.map (·.id) ++ extra := List.mem_append_left _ (List.mem_map_of_mem hmem)
        exact Or.inr (Or.inr ⟨h.id, hid, ht.1, fun hboth => hu hboth.2, hr⟩)
    · have hne : ∀ h ∈ handles, h.path ≠ path := by simpa using hpath
      have hsame : releaseAll d' handles path = d' path := releaseAll_of_ne d' handles hne
      have hlive : (releaseAll d' handles).live opts path = d'.live opts path := by
        simp only [Directory.live, hsame]
      rw [hsame, hlive]
      obtain h | h | ⟨id, hid, hw, ht, h⟩ := hrest path hne
      · exact Or.inl h
      · exact Or.inr (Or.inl h)
      · exact Or.inr (Or.inr ⟨id, List.mem_append_right _ hid, hw, fun hboth => ht hboth.1, h⟩)

theorem leaves_exhausted (hc : Holding os dir opts d c handles next) :
    Leaves os dir opts d (releaseAll c handles) (handles.map (·.id)) := by
  have h : Leaves os dir opts d (releaseAll c handles) (handles.map (·.id) ++ []) := by
    apply leaves_releaseAll hc
    · exact fun h hmem => (hc.own h hmem).2.2.2
    · simp
    · simp
    · exact fun path hne => Or.inl (hc.other path hne)
  rwa [List.append_nil] at h

theorem leaves_failed {id : ℕ} (hc : Holding os dir opts d c handles next)
    (hs : scanStop os dir opts d next = some id) (ht : ¬ Takes os dir id) :
    Leaves os dir opts d (releaseAll (settle os dir opts c id).2 handles) (handles.map (·.id) ++ [id]) := by
  have hle : next ≤ id := (stopWithin_some hs).1
  by_cases hw : Written os dir id
  · have hsettle : (settle os dir opts c id).2 = taken os dir opts c id := by
      obtain ⟨e, he⟩ := @settle_of_written os dir opts c id hw ht
      rw [he]
    rw [hsettle]
    have hself : taken os dir opts c id (taskIdReservationPath dir id) = some (ownEntry os dir opts id) :=
      Function.update_self _ _ _
    apply leaves_releaseAll hc
    · intro h hmem
      rw [taken, Function.update_of_ne (hc.idPath_ne hmem hle)]
      exact (hc.own h hmem).2.2.2
    · simpa using hle
    · simpa using fun _ => hself
    · intro path hne
      by_cases hp : path = taskIdReservationPath dir id
      · exact Or.inr (Or.inr ⟨id, List.mem_singleton_self id, hw, ht, hp ▸ hself⟩)
      · left
        rw [taken, Function.update_of_ne hp]
        exact hc.other path hne
  · obtain ⟨e, d', he, hsame⟩ := @settle_of_not_written os dir opts c id hw
    have hsettle : (settle os dir opts c id).2 = d' := by rw [he]
    rw [hsettle]
    apply leaves_releaseAll hc
    · intro h hmem
      obtain hd | ⟨hp, -⟩ := hsame (taskIdReservationPath dir h.id)
      · rw [hd]
        exact (hc.own h hmem).2.2.2
      · exact absurd hp (hc.idPath_ne hmem hle)
    · simpa using hle
    · simpa using fun h => absurd h hw
    · intro path hne
      obtain hd | ⟨-, hlive⟩ := hsame path
      · exact Or.inl (hd.trans (hc.other path hne))
      · exact Or.inr (Or.inl hlive)

/-- A failed block holds nothing exactly when every file it wrote could be given back. -/
theorem holdsNone_iff {ids : List ℕ} (h : Leaves os dir opts d d' ids)
    (hstop : ∀ id ∈ ids, passes os dir opts d id = false) :
    HoldsNone opts d d' ↔ (opts.isPidAlive (Nat.toDigits 10 opts.pid) = true → ∀ id ∈ ids, Written os dir id →
      Takes os dir id ∧ os.unlinksOwn (taskIdReservationPath dir id) = true) := by
  constructor
  · intro hnone halive id hid hw
    by_contra hnot
    have hkept := h.kept id hid hw hnot
    have hlive : d'.live opts (taskIdReservationPath dir id) = true := by
      simp only [Directory.live, hkept, live_ownEntry, halive]
    have hbefore : d.live opts (taskIdReservationPath dir id) = true := by
      rw [Directory.live, ← hnone _ hlive, ← Directory.live]
      exact hlive
    rw [not_live_of_stop (hstop id hid) hw.1] at hbefore
    cases hbefore
  · intro hback path hlive
    obtain hsame | hdead | ⟨id, hid, hw, hnot, hown⟩ := h.rest path
    · exact hsame
    · rw [hdead] at hlive
      cases hlive
    · have halive : opts.isPidAlive (Nat.toDigits 10 opts.pid) = true := by
        simpa only [Directory.live, hown, live_ownEntry] using hlive
      exact absurd (hback halive id hid hw) hnot

theorem reserveBlockFrom_eq {fuel count : ℕ} {r : ReservedBlock}
    (h : reserveBlockFrom os dir opts fuel count next handles d = some r) :
    r = reservedBlock os dir opts count next handles d := by
  induction count generalizing next handles d with
  | zero => exact (Option.some.inj h).symm
  | succ count ih =>
      rw [reserveBlockFrom] at h
      rw [reservedBlock]
      cases hr : reserveTaskIdFrom os dir opts fuel next d with
      | none => simp [hr] at h
      | some q =>
          obtain ⟨-, hq⟩ := reserveTaskIdFrom_eq hr
          rw [← hq]
          obtain ⟨q, d'⟩ := q
          cases q with
          | error e =>
              simp only [hr, Option.some.injEq] at h
              exact h.symm
          | ok g =>
              simp only [hr] at h
              exact ih h

/-- In an end of a block all ids are held, or it failed and holds none exactly when it gave
everything back. -/
theorem blockEnd_iff {startId count : ℕ} {r : ReservedBlock}
    (h : BlockEnd os dir opts d (stops os dir opts d count startId) count r) :
    HoldsAllOrNone os dir opts d count r ↔
      (Completes os dir opts d startId count ∨ GivesBack os dir opts d startId count) := by
  have hstop : ∀ id ∈ stops os dir opts d count startId, passes os dir opts d id = false := fun _ hid => (mem_stops hid).2
  cases h with
  | @held handles c next hc hids hcount =>
      have hcomplete : Completes os dir opts d startId count := by
        refine ⟨by rw [← hids, List.length_map, hcount], ?_⟩
        intro id hid
        rw [← hids] at hid
        obtain ⟨g, hmem, rfl⟩ := List.mem_map.mp hid
        exact (hc.own g hmem).2.1
      simp only [hcomplete, true_or, iff_true]
      refine ⟨by rw [hcount], hc.increasing, ?_, ?_⟩
      · intro g hmem
        obtain ⟨hof, -, hlive, hown⟩ := hc.own g hmem
        have hpath : g.path = taskIdReservationPath dir g.id := congrArg (·.path) hof
        rw [hpath]
        exact ⟨rfl, hlive, hown⟩
      · intro path _
        by_cases hpath : ∃ g ∈ handles, g.path = path
        · exact Or.inr hpath
        · exact Or.inl (hc.other path (by simpa using hpath))
  | @exhausted handles c next e hc hids hcount =>
      have hnot : ¬ Completes os dir opts d startId count := by
        intro hcomplete
        have hlen := hcomplete.1
        rw [← hids, List.length_map] at hlen
        omega
      have hleaves := leaves_exhausted hc
      rw [hids] at hleaves
      simp only [hnot, false_or]
      exact holdsNone_iff hleaves hstop
  | @failed handles c next id e hc hids hs ht =>
      have hnot : ¬ Completes os dir opts d startId count := by
        intro hcomplete
        exact ht (hcomplete.2 id (by rw [← hids]; simp))
      have hleaves := leaves_failed hc hs ht
      rw [hids] at hleaves
      simp only [hnot, false_or]
      exact holdsNone_iff hleaves hstop

theorem allOrNothing_iff {startId : ℕ} {count : ℤ} :
    AllOrNothing os dir opts d startId count ↔ BlockClears os dir opts d startId count := by
  unfold AllOrNothing BlockClears
  by_cases hcount : count < 1
  · have hge : ¬ 1 ≤ count := by omega
    simp only [hge, false_imp_iff, iff_true]
    refine ⟨0, _, by rw [reserveTaskIdBlock, if_pos hcount], ?_⟩
    exact fun _ _ => rfl
  · have hge : 1 ≤ count := by omega
    simp only [reserveTaskIdBlock, hcount, if_false, hge, true_imp_iff]
    cases hm : os.mkdirError with
    | some e =>
        simp only [reduceCtorEq, false_imp_iff, iff_true]
        obtain ⟨n, hn⟩ : ∃ n, count.toNat = n + 1 := ⟨count.toNat - 1, by omega⟩
        refine ⟨0, (.error (.reservation (directoryFailed dir e)), d), ?_, fun _ _ => rfl⟩
        rw [hn]
        simp [reserveBlockFrom, reserveTaskIdFrom, hm, releaseAll]
    | none =>
        simp only [true_imp_iff]
        have hend : BlockEnd os dir opts d (stops os dir opts d count.toNat startId) count.toNat
            (reservedBlock os dir opts count.toNat startId [] d) := by
          have hstart : Holding os dir opts d d [] startId := Holding.start
          have h := @reservedBlock_end os dir opts d d startId count.toNat [] hm hstart
          simpa using h
        have hgood := blockEnd_iff hend
        rw [Int.toNat_of_nonneg (by omega)] at hgood
        rw [← hgood]
        constructor
        · rintro ⟨fuel, r, hr, hheld⟩
          have heq := reserveBlockFrom_eq hr
          refine ⟨?_, ?_⟩
          · intro id hid hstuck
            rw [reserveBlockFrom_stuck hm ⟨id, hid, hstuck⟩ fuel] at hr
            cases hr
          · rw [← heq]
            exact hheld
        · rintro ⟨hfree, hheld⟩
          obtain ⟨least, hends⟩ := @reserveBlockFrom_ends os dir opts d startId count.toNat [] fun _ => hfree
          exact ⟨least, _, hends least le_rfl, hheld⟩

end exactness

/-- A reservation ends, with an error or an id that no live holder owned, exactly when the first id
of its window that no live holder owns is free, can be freed or fails at once.  A block ends with all
its ids or none exactly when that is so of every id at which its scans stop, and when it either
completes or can give back the files it writes. -/
theorem local_reservation_exact (d : Directory) (startId : ℕ) (count : ℤ) :
    (EndsFree os dir opts d startId ↔ ScanClears os dir opts d startId) ∧
      (AllOrNothing os dir opts d startId count ↔ BlockClears os dir opts d startId count) :=
  ⟨endsFree_iff, allOrNothing_iff⟩

/-- Every call succeeds, for a process whose own pid is 7. -/
def quietOs : Os where
  mkdirError := none
  openError := fun _ => none
  writeError := fun _ => none
  closeError := fun _ => none
  unlinksOwn := fun _ => true

def ownOpts : ReserveTaskIdOpts where
  pid := 7
  host := "h".toList
  startedAt := fun _ => "t".toList
  purpose := "p".toList
  isPidAlive := fun pid => pid == ['7']
  maxScan := 1000

/-- A directory where the file of an id should be: it cannot be parsed and `unlinkSync` fails. -/
def blockedAt (path : Text) : Directory := fun p => if p = path then some ⟨none, false⟩ else none

/-- With a subdirectory at the path of the start id, the loop tries that id for ever. -/
theorem blocked_reservation_never_ends :
    let d := blockedAt (taskIdReservationPath "s".toList 4)
    ¬ EndsFree quietOs "s".toList ownOpts d 4 ∧ ¬ AllOrNothing quietOs "s".toList ownOpts d 4 1 := by
  intro d
  have hstop : scanStop quietOs "s".toList ownOpts d 4 = some 4 := by decide +kernel
  have hstuck : Stuck quietOs "s".toList d 4 := ⟨rfl, ⟨none, false⟩, by simp [d, blockedAt], rfl⟩
  have hmem : 4 ∈ stops quietOs "s".toList ownOpts d 1 4 := by decide +kernel
  constructor
  · rw [endsFree_iff]
    exact fun h => h rfl 4 hstop hstuck
  · rw [allOrNothing_iff]
    exact fun h => (h (by decide) rfl).1 4 hmem hstuck

end Remudero.TaskId
