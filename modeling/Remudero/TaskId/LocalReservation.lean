import Remudero.Lib.Calendar
import Remudero.Lib.Json
import Remudero.Lib.Record
import Remudero.Lib.Loop

/-! # Local task-id reservations

`reserveTaskIdFrom` and `reserveTaskIdBlock` of `lib/task-id-reservation.ts`.  An id is reserved by
a file of its own in the reservation directory, created with `wx`.  A file that is already there is
read: when its holder is alive the scan goes on with the next id, otherwise the file is unlinked and
the same id is tried again.  A block takes its ids one after the other and gives back what it took
when one of them fails.

A directory maps a path to its entry.  An entry has the value `JSON.parse` makes of its text (`none`
when the text cannot be read or parsed) and says whether it can be unlinked.  What the operating
system answers to the calls that can fail is `Os`; no other process acts, so an answer depends only
on the path.  `EEXIST` is not among these answers: `openSync` gives it exactly when an entry is
there.

The ids at which the scans stop are a function of the directory before the call.  A stop at a stale
entry that cannot be unlinked is the one way not to end: `reserveTaskIdFrom_ends` and
`reserveTaskIdFrom_none`.  `LocalReservationSafety.lean` says when a block is all or nothing. -/

namespace Remudero.TaskId

open Remudero.Lib

/-! ### The directory -/

structure Entry where
  content : Option Json
  unlinks : Bool

abbrev Directory := Text → Option Entry

/-- What the calls of one process are answered.  A write that fails leaves an empty file behind,
a `closeSync` that fails a complete one. -/
structure Os where
  mkdirError : Option Text
  openError : Text → Option Text
  writeError : Text → Option Text
  closeError : Text → Option Text
  unlinksOwn : Text → Bool

def taskIdReservationPath (dir : Text) (id : ℕ) : Text :=
  dir ++ "/W1-T".toList ++ padded 5 id ++ ".json".toList

theorem taskIdReservationPath_injective (dir : Text) : Function.Injective (taskIdReservationPath dir) := by
  intro i j h
  unfold taskIdReservationPath at h
  exact padded_injective 5 (List.append_cancel_left (List.append_cancel_right h))

/-- The pid of a reservation file whose `pid` and `id` are numbers, as the number is shown. -/
def readTaskIdReservation (content : Option Json) : Option Text :=
  match content with
  | some (.obj fields) =>
      match entryOf "pid".toList fields, entryOf "id".toList fields with
      | some (.num pid), some (.num _) => some pid
      | _, _ => none
  | _ => none

def outcomeLocal : Text := "local".toList

def outcomeExhausted : Text := "exhausted".toList

structure TaskIdReservationError where
  message : Text
  taskId : Option Text
  outcome : Text
deriving DecidableEq, Repr

structure TaskIdReservationHandle where
  id : ℕ
  path : Text
  info : Json

/-- The holder a reservation records: the caller's overrides over the process's own pid, host name
and clock.  `startedAt` is the time at which the file of an id is written. -/
structure ReserveTaskIdOpts where
  pid : ℕ
  host : Text
  startedAt : ℕ → Text
  purpose : Text
  isPidAlive : Text → Bool
  maxScan : ℕ

variable (os : Os) (dir : Text) (opts : ReserveTaskIdOpts)

def reservationInfo (id : ℕ) : Json :=
  .obj [("id".toList, .num (Nat.toDigits 10 id)), ("pid".toList, .num (Nat.toDigits 10 opts.pid)),
    ("host".toList, .str opts.host), ("startedAt".toList, .str (opts.startedAt id)),
    ("purpose".toList, .str opts.purpose)]

/-- A live holder owns what this entry reserves. -/
def Entry.live (e : Entry) : Bool :=
  match readTaskIdReservation e.content with
  | some pid => opts.isPidAlive pid
  | none => false

def Directory.live (d : Directory) (path : Text) : Bool :=
  match d path with
  | some e => e.live opts
  | none => false

def reservationFailed (id : ℕ) (e : Text) : TaskIdReservationError where
  message := "cannot reserve task id W1-T".toList ++ Nat.toDigits 10 id ++ " at ".toList ++
    taskIdReservationPath dir id ++ ": ".toList ++ e
  taskId := some ("W1-T".toList ++ Nat.toDigits 10 id)
  outcome := outcomeLocal

def reservationExhausted (startId : ℕ) : TaskIdReservationError where
  message := "no free task id in W1-T".toList ++ Nat.toDigits 10 startId ++ "..W1-T".toList ++
    Nat.toDigits 10 (startId + opts.maxScan - 1) ++ " — ".toList ++ dir ++ " holds ".toList ++
    Nat.toDigits 10 opts.maxScan ++ " live reservations".toList
  taskId := none
  outcome := outcomeExhausted

def directoryFailed (e : Text) : TaskIdReservationError where
  message := "cannot create the task-id reservation directory ".toList ++ dir ++ ": ".toList ++ e
  taskId := none
  outcome := outcomeLocal

/-! ### One reservation -/

abbrev Reserved := Except TaskIdReservationError TaskIdReservationHandle × Directory

/-- The file this process writes for an id. -/
def ownEntry (id : ℕ) : Entry :=
  ⟨some (reservationInfo opts id), os.unlinksOwn (taskIdReservationPath dir id)⟩

/-- `openSync(path, "wx")` where no entry is, then `writeSync` and `closeSync`. -/
def createReservation (id : ℕ) (d : Directory) : Reserved :=
  let path := taskIdReservationPath dir id
  match os.writeError path with
  | some e => (.error (reservationFailed dir id e),
      Function.update d path (some ⟨none, os.unlinksOwn path⟩))
  | none =>
      let written := Function.update d path (some (ownEntry os dir opts id))
      match os.closeError path with
      | some e => (.error (reservationFailed dir id e), written)
      | none => (.ok ⟨id, path, reservationInfo opts id⟩, written)

/-- One round of the loop: the id to try and the directory. -/
def reserveStep (startId : ℕ) (s : ℕ × Directory) : (ℕ × Directory) ⊕ Reserved :=
  if s.1 < startId + opts.maxScan then
    let path := taskIdReservationPath dir s.1
    match os.openError path with
    | some e => .inr (.error (reservationFailed dir s.1 e), s.2)
    | none =>
        match s.2 path with
        | none => .inr (createReservation os dir opts s.1 s.2)
        | some entry =>
            if entry.live opts then .inl (s.1 + 1, s.2)
            -- a stale file is unlinked; an error of `unlinkSync` is swallowed
            else if entry.unlinks then .inl (s.1, Function.update s.2 path none)
            else .inl s
  else .inr (.error (reservationExhausted dir opts startId), s.2)

/-- `none` while the loop is still going after `fuel` rounds, each of at most four file
operations. -/
def reserveTaskIdFrom (fuel startId : ℕ) (d : Directory) : Option Reserved :=
  match os.mkdirError with
  | some e => some (.error (directoryFailed dir e), d)
  | none => loop (reserveStep os dir opts startId) fuel (startId, d)

/-! ### A block -/

/-- `release` of a handle: the file is unlinked, and an error is swallowed. -/
def release (d : Directory) (h : TaskIdReservationHandle) : Directory :=
  match d h.path with
  | some e => if e.unlinks then Function.update d h.path none else d
  | none => d

def releaseAll (d : Directory) (handles : List TaskIdReservationHandle) : Directory :=
  handles.foldl release d

inductive BlockError where
  | typeError (message : Text)
  | reservation (e : TaskIdReservationError)
deriving DecidableEq, Repr

abbrev ReservedBlock := Except BlockError (List TaskIdReservationHandle) × Directory

/-- `count` further ids from `next` on.  Every reservation has `fuel` rounds. -/
def reserveBlockFrom (fuel : ℕ) : ℕ → ℕ → List TaskIdReservationHandle → Directory → Option ReservedBlock
  | 0, _, handles, d => some (.ok handles, d)
  | count + 1, next, handles, d =>
      match reserveTaskIdFrom os dir opts fuel next d with
      | none => none
      | some (.error e, d') => some (.error (.reservation e), releaseAll d' handles)
      | some (.ok h, d') => reserveBlockFrom fuel count (h.id + 1) (handles ++ [h]) d'

def reserveTaskIdBlock (fuel startId : ℕ) (count : ℤ) (d : Directory) : Option ReservedBlock :=
  if count < 1 then
    some (.error (.typeError ("reserveTaskIdBlock: count must be a positive integer, got ".toList ++
      (toString count).toList)), d)
  else reserveBlockFrom os dir opts fuel count.toNat startId [] d

/-! ### Where the scan stops

The ids at which the scans of a block stop, the condition of the main result, and what a stop
leads to, all read off the directory as it is before the call. -/

/-- The scan goes past an id that a live holder owns. -/
def passes (d : Directory) (id : ℕ) : Bool :=
  (os.openError (taskIdReservationPath dir id)).isNone && d.live opts (taskIdReservationPath dir id)

/-- The first id of the `n` from `id` on that the scan does not pass. -/
def stopWithin (d : Directory) : ℕ → ℕ → Option ℕ
  | 0, _ => none
  | n + 1, id => if passes os dir opts d id then stopWithin d n (id + 1) else some id

def scanStop (d : Directory) (startId : ℕ) : Option ℕ := stopWithin os dir opts d opts.maxScan startId

/-- A stop at an entry that cannot be unlinked. -/
def Stuck (d : Directory) (id : ℕ) : Prop :=
  os.openError (taskIdReservationPath dir id) = none ∧
    ∃ e, d (taskIdReservationPath dir id) = some e ∧ e.unlinks = false

/-- What a stop that is not stuck leads to. -/
def settle (d : Directory) (id : ℕ) : Reserved :=
  match os.openError (taskIdReservationPath dir id) with
  | some e => (.error (reservationFailed dir id e), d)
  | none => createReservation os dir opts id (Function.update d (taskIdReservationPath dir id) none)

section scan

variable {os dir opts} {d : Directory} {startId id : ℕ}

theorem reserveStep_of_passes (hlt : id < startId + opts.maxScan) (h : passes os dir opts d id = true) :
    reserveStep os dir opts startId (id, d) = .inl (id + 1, d) := by
  simp only [passes, Bool.and_eq_true, Option.isNone_iff_eq_none, Directory.live] at h
  obtain ⟨hopen, hlive⟩ := h
  cases hd : d (taskIdReservationPath dir id) with
  | none => simp [hd] at hlive
  | some e =>
      rw [hd] at hlive
      simp [reserveStep, hlt, hopen, hd, hlive]

theorem reserveStep_of_stuck (hlt : id < startId + opts.maxScan) (h : passes os dir opts d id = false)
    (hs : Stuck os dir d id) : reserveStep os dir opts startId (id, d) = .inl (id, d) := by
  obtain ⟨hopen, e, hd, hu⟩ := hs
  have hlive : e.live opts = false := by
    simpa [passes, hopen, Directory.live, hd] using h
  simp [reserveStep, hlt, hopen, hd, hlive, hu]

theorem reserveStep_free (hlt : id < startId + opts.maxScan)
    (hopen : os.openError (taskIdReservationPath dir id) = none)
    (hd : d (taskIdReservationPath dir id) = none) :
    reserveStep os dir opts startId (id, d) = .inr (createReservation os dir opts id d) := by
  simp [reserveStep, hlt, hopen, hd]

/-- At a stop that is not stuck the loop ends, after one round or, when a stale file is there,
after two. -/
theorem ends_at_stop (hlt : id < startId + opts.maxScan) (h : passes os dir opts d id = false)
    (hs : ¬ Stuck os dir d id) :
    ∃ fuel, loop (reserveStep os dir opts startId) fuel (id, d) = some (settle os dir opts d id) := by
  cases hopen : os.openError (taskIdReservationPath dir id) with
  | some e => exact ⟨1, by simp [loop, reserveStep, hlt, hopen, settle]⟩
  | none =>
      have hsettle : settle os dir opts d id =
          createReservation os dir opts id (Function.update d (taskIdReservationPath dir id) none) := by
        simp [settle, hopen]
      cases hd : d (taskIdReservationPath dir id) with
      | none =>
          rw [hsettle, ← hd, Function.update_eq_self]
          exact ⟨1, loop_succ_inr 0 (reserveStep_free hlt hopen hd)⟩
      | some e =>
          have hlive : e.live opts = false := by
            simpa [passes, hopen, Directory.live, hd] using h
          have hu : e.unlinks = true := by
            by_contra hne
            exact hs ⟨hopen, e, hd, by simpa using hne⟩
          have hstep : reserveStep os dir opts startId (id, d) =
              .inl (id, Function.update d (taskIdReservationPath dir id) none) := by
            simp [reserveStep, hlt, hopen, hd, hlive, hu]
          rw [hsettle]
          exact ends_of_step hstep ⟨1, loop_succ_inr 0 (reserveStep_free hlt hopen (by simp))⟩

theorem stopWithin_some {n t : ℕ} (h : stopWithin os dir opts d n id = some t) :
    id ≤ t ∧ t < id + n ∧ passes os dir opts d t = false := by
  induction n generalizing id with
  | zero => simp [stopWithin] at h
  | succ n ih =>
      rw [stopWithin] at h
      split at h
      · obtain ⟨hle, hlt, hp⟩ := ih h
        exact ⟨by omega, by omega, hp⟩
      · rename_i hp
        obtain rfl := Option.some.inj h
        exact ⟨le_rfl, by omega, by simpa using hp⟩

theorem loop_stop_stuck {n t : ℕ} (hwindow : id + n = startId + opts.maxScan)
    (h : stopWithin os dir opts d n id = some t) (hs : Stuck os dir d t) (fuel : ℕ) :
    loop (reserveStep os dir opts startId) fuel (id, d) = none := by
  induction n generalizing id fuel with
  | zero => simp [stopWithin] at h
  | succ n ih =>
      rw [stopWithin] at h
      split at h
      · rename_i hp
        exact not_ends_of_step (reserveStep_of_passes (by omega) hp) (ih (by omega) h) fuel
      · rename_i hp
        obtain rfl := Option.some.inj h
        exact loop_none_of_step_self (reserveStep_of_stuck (by omega) (by simpa using hp) hs) fuel

theorem loop_stop {n t : ℕ} (hwindow : id + n = startId + opts.maxScan)
    (h : stopWithin os dir opts d n id = some t) (hs : ¬ Stuck os dir d t) :
    ∃ fuel, loop (reserveStep os dir opts startId) fuel (id, d) = some (settle os dir opts d t) := by
  induction n generalizing id with
  | zero => simp [stopWithin] at h
  | succ n ih =>
      rw [stopWithin] at h
      split at h
      · rename_i hp
        exact ends_of_step (reserveStep_of_passes (by omega) hp) (ih (by omega) h)
      · rename_i hp
        obtain rfl := Option.some.inj h
        exact ends_at_stop (by omega) (by simpa using hp) hs

theorem loop_exhausted {n : ℕ} (hwindow : id + n = startId + opts.maxScan)
    (h : stopWithin os dir opts d n id = none) :
    ∃ fuel, loop (reserveStep os dir opts startId) fuel (id, d) =
      some (.error (reservationExhausted dir opts startId), d) := by
  induction n generalizing id with
  | zero =>
      have hge : ¬ id < startId + opts.maxScan := by omega
      exact ⟨1, by simp [loop, reserveStep, hge]⟩
  | succ n ih =>
      rw [stopWithin] at h
      split at h
      · rename_i hp
        exact ends_of_step (reserveStep_of_passes (by omega) hp) (ih (by omega) h)
      · cases h

end scan

/-- What a call that ends answers. -/
def reserved (d : Directory) (startId : ℕ) : Reserved :=
  match os.mkdirError with
  | some e => (.error (directoryFailed dir e), d)
  | none =>
      match scanStop os dir opts d startId with
      | some id => settle os dir opts d id
      | none => (.error (reservationExhausted dir opts startId), d)

/-- The scan from an id does not stop at a stale entry that cannot be unlinked. -/
def ScanClears (d : Directory) (startId : ℕ) : Prop :=
  os.mkdirError = none → ∀ id, scanStop os dir opts d startId = some id → ¬ Stuck os dir d id

section reserveTaskIdFrom

variable {os dir opts} {d : Directory} {startId : ℕ}

theorem reserveTaskIdFrom_ends (h : ScanClears os dir opts d startId) :
    ∃ fuel, reserveTaskIdFrom os dir opts fuel startId d = some (reserved os dir opts d startId) := by
  unfold reserveTaskIdFrom reserved
  cases hm : os.mkdirError with
  | some e => exact ⟨0, rfl⟩
  | none =>
      cases hs : scanStop os dir opts d startId with
      | none => exact loop_exhausted rfl hs
      | some id => exact loop_stop rfl hs (h hm id hs)

theorem reserveTaskIdFrom_none (h : ¬ ScanClears os dir opts d startId) (fuel : ℕ) :
    reserveTaskIdFrom os dir opts fuel startId d = none := by
  simp only [ScanClears, not_forall, not_not] at h
  obtain ⟨hm, id, hs, hstuck⟩ := h
  rw [reserveTaskIdFrom, hm]
  exact loop_stop_stuck rfl hs hstuck fuel

theorem reserveTaskIdFrom_mono {fuel fuel' : ℕ} (hle : fuel ≤ fuel') {r : Reserved}
    (h : reserveTaskIdFrom os dir opts fuel startId d = some r) :
    reserveTaskIdFrom os dir opts fuel' startId d = some r := by
  unfold reserveTaskIdFrom at h ⊢
  cases hm : os.mkdirError with
  | some e =>
      rw [hm] at h
      exact h
  | none =>
      rw [hm] at h
      exact loop_mono hle h

theorem reserveTaskIdFrom_eq {fuel : ℕ} {r : Reserved}
    (h : reserveTaskIdFrom os dir opts fuel startId d = some r) :
    ScanClears os dir opts d startId ∧ r = reserved os dir opts d startId := by
  have hc : ScanClears os dir opts d startId := by
    by_contra hc
    rw [reserveTaskIdFrom_none hc fuel] at h
    cases h
  obtain ⟨fuel', h'⟩ := reserveTaskIdFrom_ends hc
  have hmax := reserveTaskIdFrom_mono (le_max_left fuel fuel') h
  rw [reserveTaskIdFrom_mono (le_max_right fuel fuel') h'] at hmax
  exact ⟨hc, (Option.some.inj hmax).symm⟩

end reserveTaskIdFrom

/-! ### What a stop does -/

/-- The file of an id is created and written. -/
def Written (id : ℕ) : Prop :=
  os.openError (taskIdReservationPath dir id) = none ∧ os.writeError (taskIdReservationPath dir id) = none

instance (id : ℕ) : Decidable (Written os dir id) := instDecidableAnd

/-- The file of an id is created, written and closed. -/
def Takes (id : ℕ) : Prop :=
  Written os dir id ∧ os.closeError (taskIdReservationPath dir id) = none

instance (id : ℕ) : Decidable (Takes os dir id) := instDecidableAnd

def handleOf (id : ℕ) : TaskIdReservationHandle :=
  ⟨id, taskIdReservationPath dir id, reservationInfo opts id⟩

/-- The directory after the file of an id is written. -/
def taken (d : Directory) (id : ℕ) : Directory :=
  Function.update d (taskIdReservationPath dir id) (some (ownEntry os dir opts id))

section settle

variable {os dir opts} {d : Directory} {id : ℕ}

theorem settle_of_takes (h : Takes os dir id) :
    settle os dir opts d id = (.ok (handleOf dir opts id), taken os dir opts d id) := by
  obtain ⟨⟨hopen, hwrite⟩, hclose⟩ := h
  simp [settle, createReservation, hopen, hwrite, hclose, handleOf, taken]

theorem settle_of_written (h : Written os dir id) (hclose : ¬ Takes os dir id) :
    ∃ e, settle os dir opts d id = (.error (reservationFailed dir id e), taken os dir opts d id) := by
  obtain ⟨hopen, hwrite⟩ := h
  obtain ⟨e, he⟩ : ∃ e, os.closeError (taskIdReservationPath dir id) = some e := by
    apply Option.ne_none_iff_exists'.mp
    exact fun hnone => hclose ⟨⟨hopen, hwrite⟩, hnone⟩
  exact ⟨e, by simp [settle, createReservation, hopen, hwrite, he, taken]⟩

/-- A file that could not be created or written leaves no holder. -/
theorem settle_of_not_written (h : ¬ Written os dir id) :
    ∃ e d', settle os dir opts d id = (.error (reservationFailed dir id e), d') ∧
      ∀ path, d' path = d path ∨ (path = taskIdReservationPath dir id ∧ d'.live opts path = false) := by
  cases hopen : os.openError (taskIdReservationPath dir id) with
  | some e => exact ⟨e, d, by simp [settle, hopen], fun _ => Or.inl rfl⟩
  | none =>
      obtain ⟨e, he⟩ : ∃ e, os.writeError (taskIdReservationPath dir id) = some e := by
        apply Option.ne_none_iff_exists'.mp
        exact fun hnone => h ⟨hopen, hnone⟩
      refine ⟨e, _, by simp only [settle, hopen, createReservation, he]; rfl, ?_⟩
      intro path
      by_cases hp : path = taskIdReservationPath dir id
      · right
        subst hp
        simp [Directory.live, Entry.live, readTaskIdReservation]
      · left
        simp [hp]

theorem live_ownEntry (id : ℕ) :
    (ownEntry os dir opts id).live opts = opts.isPidAlive (Nat.toDigits 10 opts.pid) := by
  have hread : readTaskIdReservation (some (reservationInfo opts id)) = some (Nat.toDigits 10 opts.pid) := by
    rfl
  simp [Entry.live, ownEntry, hread]

theorem not_live_of_stop (hp : passes os dir opts d id = false) (hw : os.openError (taskIdReservationPath dir id) = none) :
    d.live opts (taskIdReservationPath dir id) = false := by
  simpa [passes, hw] using hp

end settle

end Remudero.TaskId
