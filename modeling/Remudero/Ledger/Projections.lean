import Remudero.Ledger.LineSeen
import Remudero.Lib.Newest
import Remudero.Lib.Row

/-! # Row projections of the read model

`ACTIVITY_RING_PROJECTION`, `TASK_ACTIVITY_PROJECTION`, `RUN_ACTIVITY_PROJECTION` and `RUN_WORKER_PROJECTION` of
`lib/ledger-projector.ts`: four tables that are fed each fresh line of the ledger, and settled after every
transaction.

The runtime (`JSON.parse`, `Date.parse` and the digest) is a parameter.  A table is the record of its rows by
primary key; the ring is the list of its rows in the order of their `seq`.

The main result is `projections_read_order`: the tables are the same for every order of the lines, every
number of times they are applied and every placement of the settling, if and only if the newest rows of each
task and of each run have one spelling of their time (`TiesAgree`). -/

namespace Remudero.Ledger.Projections

open Remudero.Lib

structure Io where
  jsonParse : Text → Option Json
  dateParse : Text → Option ℤ
  /-- The first eight bytes of the SHA-1 of a line, as a signed integer. -/
  digest : Text → ℤ

variable (io : Io)

/-! ### Lines -/

structure LineIdentity where
  ts : Text
  tsMs : ℤ
  h : ℤ

def ledgerLineIdentity (line : Text) : LineIdentity :=
  let rest := line.drop tsMark.length
  let ts := if tsMark.isPrefixOf line && rest.contains '"' then rest.takeWhile (· != '"') else []
  { ts, tsMs := if ts = [] then 0 else (io.dateParse ts).getD 0, h := io.digest line }

def parseRow (line : Text) : Option Lib.Row :=
  match io.jsonParse line with
  | some (.obj fields) => some fields
  | _ => none

/-- The time of a row, as it is written and in milliseconds. -/
def timeOf (row : Lib.Row) : Option (Text × ℤ) := (row.str "ts").bind fun ts => (io.dateParse ts).map fun ms => (ts, ms)

/-! ### The activity ring -/

def activityRingRows : ℕ := 500

structure RingRow where
  tsMs : ℤ
  h : ℤ
  body : Text
deriving DecidableEq

def RingRow.key (r : RingRow) : ℤ ×ₗ ℤ := toLex (r.tsMs, r.h)

/-- The row of a line whose `ts` is not its first key is placed by its parsed `ts`. -/
def ringRow (line : Text) : RingRow :=
  let id := ledgerLineIdentity io line
  let parsed := if id.ts = [] then ((parseRow io line).bind fun row => row.str "ts").bind io.dateParse else none
  ⟨parsed.getD id.tsMs, id.h, line⟩

/-- `INSERT OR IGNORE`. -/
def applyRing (ring : List RingRow) (line : Text) : List RingRow :=
  if Text.contains line "\"step\":\"".toList then
    if (ringRow io line).key ∈ ring.map RingRow.key then ring else ring ++ [ringRow io line]
  else ring

def settleRing (ring : List RingRow) : List RingRow := trim activityRingRows RingRow.key ring

/-! ### Task and run activity -/

/-- What a line says of a task. -/
def taskRow (line : Text) : Option (Text × Text × ℤ) :=
  if Text.contains line "\"task_id\":\"".toList then
    (parseRow io line).bind fun row => (timeOf io row).bind fun time => (row.str "task_id").map fun task => (task, time)
  else none

def applyTaskActivity (table : Record Text (Text × ℤ)) (line : Text) : Record Text (Text × ℤ) :=
  match taskRow io line with
  | none => table
  | some (task, time) => upsertNewer Prod.snd table task time

structure RunActivity where
  ts : Text
  tsMs : ℤ
  seq : ℕ

/-- `COALESCE(MAX(seq), 0) + 1`. -/
def nextSeq {κ α : Type*} (seq : α → ℕ) (table : Record κ α) : ℕ := (table.values.map seq).foldl max 0 + 1

def runRow (line : Text) : Option ((Text × Text) × Text × ℤ) :=
  if Text.contains line "\"run_id\":\"".toList then
    (parseRow io line).bind fun row => (timeOf io row).bind fun time =>
      (row.str "task_id").bind fun task => (row.str "run_id").map fun run => ((task, run), time)
  else none

def applyRunActivity (table : Record (Text × Text) RunActivity) (line : Text) : Record (Text × Text) RunActivity :=
  match runRow io line with
  | none => table
  | some (key, ts, ms) => upsertNewer RunActivity.tsMs table key ⟨ts, ms, nextSeq RunActivity.seq table⟩

/-! ### Run workers -/

inductive RunWorkerField where
  | requestedModel | servedModel | provider | workerRole
deriving DecidableEq

def RunWorkerField.name : RunWorkerField → String
  | .requestedModel => "requested_model"
  | .servedModel => "served_model"
  | .provider => "provider"
  | .workerRole => "worker_role"

def runWorkerFields : List RunWorkerField := [.requestedModel, .servedModel, .provider, .workerRole]

/-- The time of a row in milliseconds, and its digest. -/
abbrev RunWorkerStamp := ℤ ×ₗ ℤ

/-- A row; `newest` and `fields` are what its column `fields` is the JSON of. -/
structure RunWorker where
  tsMs : ℤ
  ts : Text
  body : Text
  newest : RunWorkerStamp
  fields : RunWorkerField → Option (Text × RunWorkerStamp)
  seq : ℕ

def workerEventKinds : List Text := ["working".toList, "tool-executing".toList, "message".toList]

structure WorkerRow where
  key : Text × Text
  ts : Text
  ms : ℤ
  row : Lib.Row

def workerRow (line : Text) : Option WorkerRow :=
  if Text.contains line "\"step\":\"worker.activity\"".toList then
    (parseRow io line).bind fun row =>
      if row.str "step" = some "worker.activity".toList ∧ (∃ kind ∈ workerEventKinds, row.str "event_kind" = some kind) then
        (timeOf io row).bind fun time => (row.str "task_id").bind fun task => (row.str "run_id").map fun run =>
          ⟨(task, run), time.1, time.2, row⟩
      else none
  else none

/-- The stamp of a line. -/
def stampOf (line : Text) (w : WorkerRow) : RunWorkerStamp := toLex (w.ms, (ledgerLineIdentity io line).h)

/-- `after(b)`. -/
def isAfter (me : RunWorkerStamp) (b : Option RunWorkerStamp) : Bool := b.all fun b => b < me

def applyRunWorker (table : Record (Text × Text) RunWorker) (line : Text) : Record (Text × Text) RunWorker :=
  match workerRow io line with
  | none => table
  | some w =>
      let held := table.get? w.key
      let was := fun f => held.bind fun r => r.fields f
      let me := stampOf io line w
      let newest := isAfter me (held.map RunWorker.newest)
      let moves := fun (f : RunWorkerField) => (w.row.str f.name).isSome && isAfter me ((was f).map Prod.snd)
      let fields := fun (f : RunWorkerField) =>
        match w.row.str f.name with
        | some value => if isAfter me ((was f).map Prod.snd) then some (value, me) else was f
        | none => was f
      match held with
      | none => table.set w.key ⟨w.ms, w.ts, line, me, fields, nextSeq RunWorker.seq table⟩
      | some r =>
          if newest || runWorkerFields.any moves then
            table.set w.key (if newest then ⟨w.ms, w.ts, line, me, fields, nextSeq RunWorker.seq table⟩
              else ⟨r.tsMs, r.ts, r.body, r.newest, fields, nextSeq RunWorker.seq table⟩)
          else table

/-! ### Runs -/

structure Tables where
  activityRing : List RingRow
  taskActivity : Record Text (Text × ℤ)
  runActivity : Record (Text × Text) RunActivity
  runWorker : Record (Text × Text) RunWorker

def Tables.empty : Tables := ⟨[], ∅, ∅, ∅⟩

/-- A line that is applied, or the end of a transaction. -/
inductive Event where
  | apply (line : Text)
  | settle

def next (s : Tables) : Event → Tables
  | .apply line =>
      { activityRing := applyRing io s.activityRing line
        taskActivity := applyTaskActivity io s.taskActivity line
        runActivity := applyRunActivity io s.runActivity line
        runWorker := applyRunWorker io s.runWorker line }
  | .settle => { s with activityRing := settleRing s.activityRing }

def run (events : List Event) : Tables := events.foldl (next io) .empty

def applied (events : List Event) : List Text :=
  events.filterMap fun
    | .apply line => some line
    | .settle => none

/-- The content of the tables without their `seq`, and the lines in the ring. -/
structure Content where
  ring : Set Text
  task : Text → Option (Text × ℤ)
  run : Text × Text → Option (Text × ℤ)
  worker : Text × Text → Option (ℤ × Text × Text × RunWorkerStamp × (RunWorkerField → Option (Text × RunWorkerStamp)))

def Tables.content (s : Tables) : Content where
  ring := {line | line ∈ s.activityRing.map RingRow.body}
  task := s.taskActivity.get?
  run key := (s.runActivity.get? key).map fun r => (r.ts, r.tsMs)
  worker key := (s.runWorker.get? key).map fun r => (r.tsMs, r.ts, r.body, r.newest, r.fields)

/-! ### What the tables hold -/

section tables

variable {io}

theorem run_concat (events : List Event) (e : Event) : run io (events ++ [e]) = next io (run io events) e := by
  rw [run, List.foldl_append]
  rfl

theorem applied_concat_apply (events : List Event) (line : Text) : applied (events ++ [.apply line]) = applied events ++ [line] := by
  rw [applied, List.filterMap_append]
  rfl

theorem applied_concat_settle (events : List Event) : applied (events ++ [.settle]) = applied events := by
  rw [applied, List.filterMap_append]
  exact List.append_nil _

/-- The tables without a `settle` are folds over the lines. -/
theorem run_tables (events : List Event) :
    (run io events).taskActivity = (applied events).foldl (applyTaskActivity io) ∅ ∧
      (run io events).runActivity = (applied events).foldl (applyRunActivity io) ∅ ∧
      (run io events).runWorker = (applied events).foldl (applyRunWorker io) ∅ := by
  induction events using List.reverseRecOn with
  | nil => exact ⟨rfl, rfl, rfl⟩
  | append_singleton events e ih =>
      cases e with
      | settle =>
          rw [run_concat, applied_concat_settle]
          exact ih
      | apply line =>
          rw [run_concat, applied_concat_apply, List.foldl_append, List.foldl_append, List.foldl_append, ← ih.1, ← ih.2.1,
            ← ih.2.2]
          exact ⟨rfl, rfl, rfl⟩

theorem get?_taskActivity (lines : List Text) (task : Text) :
    (lines.foldl (applyTaskActivity io) ∅).get? task = Lib.newest Prod.snd (ofKey task (lines.filterMap (taskRow io))) := by
  have hnewest : ((lines.foldl (applyTaskActivity io) ∅).get? task).bind some =
      Lib.newest Prod.snd (ofKey task (lines.filterMap (taskRow io))) := by
    refine get?_foldl_newest ?_ ?_ ?_ lines task
    · intro t line k hrow
      rw [applyTaskActivity, hrow]
    · rintro t line ⟨key, time⟩ k hrow hk
      rw [applyTaskActivity, hrow]
      exact get?_upsertNewer_of_ne _ _ hk
    · rintro t line ⟨key, time⟩ hrow
      rw [applyTaskActivity, hrow, Option.bind_fun_some, Option.bind_fun_some]
      exact get?_upsertNewer_self _ _ _
  rw [← hnewest, Option.bind_fun_some]

theorem get?_runActivity (lines : List Text) (key : Text × Text) :
    ((lines.foldl (applyRunActivity io) ∅).get? key).map (fun r => (r.ts, r.tsMs)) =
      Lib.newest Prod.snd (ofKey key (lines.filterMap (runRow io))) := by
  have hnewest : ((lines.foldl (applyRunActivity io) ∅).get? key).bind (fun r => some (r.ts, r.tsMs)) =
      Lib.newest Prod.snd (ofKey key (lines.filterMap (runRow io))) := by
    refine get?_foldl_newest ?_ ?_ ?_ lines key
    · intro t line k hrow
      rw [applyRunActivity, hrow]
    · rintro t line ⟨key, ts, ms⟩ k hrow hk
      rw [applyRunActivity, hrow]
      exact get?_upsertNewer_of_ne _ _ hk
    · rintro t line ⟨key, ts, ms⟩ hrow
      rw [applyRunActivity, hrow]
      simp only [← Function.comp_def some, ← Option.map_eq_bind]
      rw [get?_upsertNewer_self]
      exact (@newer_map RunActivity (Text × ℤ) ℤ _ RunActivity.tsMs ℤ _ Prod.snd (fun r => (r.ts, r.tsMs))
        (fun a b => Iff.rfl) _ _).symm
  rw [← hnewest, Option.map_eq_bind]
  rfl

theorem newer_eq_isAfter {α : Type*} {stamp : α → RunWorkerStamp} (held : Option α) (a : α) :
    newer stamp held a = if isAfter (stamp a) (held.map stamp) then some a else held := by
  cases held with
  | none => rfl
  | some b =>
      by_cases hlt : stamp b < stamp a
      · simp [newer, isAfter, hlt]
      · simp [newer, isAfter, hlt]

/-- The fields of a run after a line of it. -/
def fieldsAfter (io : Io) (line : Text) (w : WorkerRow) (held : Option RunWorker) (f : RunWorkerField) :
    Option (Text × RunWorkerStamp) :=
  match w.row.str f.name with
  | some value => newer Prod.snd (held.bind fun r => r.fields f) (value, stampOf io line w)
  | none => held.bind fun r => r.fields f

theorem get?_applyRunWorker_of_ne (table : Record (Text × Text) RunWorker) {line : Text} {w : WorkerRow}
    (hw : workerRow io line = some w) {k : Text × Text} (hk : k ≠ w.key) :
    (applyRunWorker io table line).get? k = table.get? k := by
  unfold applyRunWorker
  simp only [hw]
  split
  · exact Record.get?_set_of_ne _ _ hk
  · split
    · exact Record.get?_set_of_ne _ _ hk
    · rfl

/-- The row of a run after a line of it. -/
theorem get?_applyRunWorker_self (table : Record (Text × Text) RunWorker) {line : Text} {w : WorkerRow}
    (hw : workerRow io line = some w) :
    ∃ r, (applyRunWorker io table line).get? w.key = some r ∧
      some (r.newest, r.tsMs, r.ts, r.body) = newer Prod.fst
        ((table.get? w.key).map fun r => (r.newest, r.tsMs, r.ts, r.body)) (stampOf io line w, w.ms, w.ts, line) ∧
      r.fields = fieldsAfter io line w (table.get? w.key) := by
  have hfields : (fun (f : RunWorkerField) =>
      match w.row.str f.name with
      | some value => if isAfter (stampOf io line w) (((table.get? w.key).bind fun r => r.fields f).map Prod.snd) then
          some (value, stampOf io line w) else (table.get? w.key).bind fun r => r.fields f
      | none => (table.get? w.key).bind fun r => r.fields f) = fieldsAfter io line w (table.get? w.key) := by
    funext f
    unfold fieldsAfter
    cases w.row.str f.name with
    | none => rfl
    | some value =>
        simp only
        rw [newer_eq_isAfter]
  unfold applyRunWorker
  simp only [hw, hfields]
  cases hheld : table.get? w.key with
  | none =>
      simp only [hheld] at hfields ⊢
      exact ⟨_, Record.get?_set_self _ _ _, rfl, rfl⟩
  | some r =>
      simp only [Option.map_some, Option.bind_some]
      by_cases hnewest : r.newest < stampOf io line w
      · have hafter : isAfter (stampOf io line w) (some r.newest) = true := decide_eq_true hnewest
        simp only [hafter, Bool.true_or, if_true]
        exact ⟨_, Record.get?_set_self _ _ _, by simp [newer, hnewest], rfl⟩
      · have hafter : isAfter (stampOf io line w) (some r.newest) = false := decide_eq_false hnewest
        simp only [hafter, Bool.false_or, Bool.false_eq_true, if_false]
        split
        · exact ⟨_, Record.get?_set_self _ _ _, by simp [newer, hnewest], rfl⟩
        · next hmoved =>
            refine ⟨r, hheld, by simp [newer, hnewest], ?_⟩
            funext f
            unfold fieldsAfter
            cases hvalue : w.row.str f.name with
            | none => rfl
            | some value =>
                -- the row carries the field and did not move it
                have hstays : isAfter (stampOf io line w) ((r.fields f).map Prod.snd) = false := by
                  by_contra hmoves
                  apply hmoved
                  refine List.any_eq_true.mpr ⟨f, by cases f <;> decide, ?_⟩
                  rw [hvalue, Option.isSome_some, Bool.true_and]
                  exact Bool.eq_true_of_not_eq_false hmoves
                simp only [Option.bind_some]
                rw [newer_eq_isAfter, hstays]
                rfl

/-- What a line says of the newest row of its run. -/
def newestEntry (io : Io) (line : Text) : Option ((Text × Text) × RunWorkerStamp × ℤ × Text × Text) :=
  (workerRow io line).map fun w => (w.key, stampOf io line w, w.ms, w.ts, line)

/-- What it says of a field. -/
def fieldEntry (io : Io) (f : RunWorkerField) (line : Text) : Option ((Text × Text) × Text × RunWorkerStamp) :=
  (workerRow io line).bind fun w => (w.row.str f.name).map fun value => (w.key, value, stampOf io line w)

theorem get?_runWorker_newest (lines : List Text) (key : Text × Text) :
    ((lines.foldl (applyRunWorker io) ∅).get? key).bind (fun r => some (r.newest, r.tsMs, r.ts, r.body)) =
      Lib.newest Prod.fst (ofKey key (lines.filterMap (newestEntry io))) := by
  refine get?_foldl_newest ?_ ?_ ?_ lines key
  · intro t line k hentry
    rw [applyRunWorker, Option.map_eq_none_iff.mp hentry]
  · intro t line p k hentry hk
    obtain ⟨w, hw, rfl⟩ := Option.map_eq_some_iff.mp hentry
    exact get?_applyRunWorker_of_ne t hw hk
  · intro t line p hentry
    obtain ⟨w, hw, rfl⟩ := Option.map_eq_some_iff.mp hentry
    obtain ⟨r, hr, hnewest, -⟩ := get?_applyRunWorker_self t hw
    rw [hr, Option.bind_some, hnewest]
    cases t.get? w.key with
    | none => rfl
    | some held => rfl

theorem get?_runWorker_field (f : RunWorkerField) (lines : List Text) (key : Text × Text) :
    ((lines.foldl (applyRunWorker io) ∅).get? key).bind (fun r => r.fields f) =
      Lib.newest Prod.snd (ofKey key (lines.filterMap (fieldEntry io f))) := by
  refine get?_foldl_newest ?_ ?_ ?_ lines key
  · intro t line k hentry
    cases hw : workerRow io line with
    | none => rw [applyRunWorker, hw]
    | some w =>
        have hvalue : w.row.str f.name = none := by simpa [fieldEntry, hw] using hentry
        by_cases hk : k = w.key
        · obtain ⟨r, hr, -, hfields⟩ := get?_applyRunWorker_self t hw
          rw [hk, hr, Option.bind_some, hfields, fieldsAfter, hvalue]
        · rw [get?_applyRunWorker_of_ne t hw hk]
  · intro t line p k hentry hk
    obtain ⟨w, hw, hp⟩ := Option.bind_eq_some_iff.mp hentry
    obtain ⟨value, -, rfl⟩ := Option.map_eq_some_iff.mp hp
    exact get?_applyRunWorker_of_ne t hw hk
  · intro t line p hentry
    obtain ⟨w, hw, hp⟩ := Option.bind_eq_some_iff.mp hentry
    obtain ⟨value, hvalue, rfl⟩ := Option.map_eq_some_iff.mp hp
    obtain ⟨r, hr, -, hfields⟩ := get?_applyRunWorker_self t hw
    rw [hr, Option.bind_some, hfields, fieldsAfter, hvalue]

end tables

/-! ### The ring -/

section ring

variable {io}

/-- The lines that the ring is fed. -/
def ringLines (lines : List Text) : List Text := lines.filter fun line => Text.contains line "\"step\":\"".toList

theorem ringLines_concat (lines : List Text) (line : Text) :
    ringLines (lines ++ [line]) = if Text.contains line "\"step\":\"".toList then ringLines lines ++ [line] else ringLines lines := by
  rw [ringLines, List.filter_append, List.filter_singleton]
  cases Text.contains line "\"step\":\"".toList with
  | false => exact List.append_nil _
  | true => rfl

def ringKey (io : Io) (line : Text) : ℤ ×ₗ ℤ := (ringRow io line).key

theorem ringKey_injOn {lines : List Text} (hdigest : ∀ a ∈ lines, ∀ b ∈ lines, io.digest a = io.digest b → a = b) {a b : Text}
    (ha : a ∈ lines) (hb : b ∈ lines) (h : ringKey io a = ringKey io b) : a = b :=
  hdigest a ha b hb (congrArg (fun k => (ofLex k).2) h)

/-- Between two events: the rows are those of lines that were applied, each once, and the newest ones are there. -/
structure RingInv (io : Io) (lines : List Text) (ring : List RingRow) : Prop where
  nodup : (ring.map RingRow.key).Nodup
  rows : ∀ r ∈ ring, ∃ line ∈ ringLines lines, r = ringRow io line
  newest : top activityRingRows ((ringLines lines).map (ringKey io)).toFinset ⊆ (ring.map RingRow.key).toFinset

theorem RingInv.subset {lines : List Text} {ring : List RingRow} (h : RingInv io lines ring) :
    (ring.map RingRow.key).toFinset ⊆ ((ringLines lines).map (ringKey io)).toFinset := by
  intro k hk
  rw [List.mem_toFinset] at hk ⊢
  obtain ⟨r, hr, rfl⟩ := List.mem_map.mp hk
  obtain ⟨line, hline, rfl⟩ := h.rows r hr
  exact List.mem_map_of_mem hline

theorem RingInv.apply {lines : List Text} {ring : List RingRow} (h : RingInv io lines ring) (line : Text) :
    RingInv io (lines ++ [line]) (applyRing io ring line) := by
  unfold applyRing
  by_cases hstep : Text.contains line "\"step\":\"".toList = true
  · have hlines : ringLines (lines ++ [line]) = ringLines lines ++ [line] := by rw [ringLines_concat, if_pos hstep]
    have hsub : ((ringLines lines).map (ringKey io)).toFinset ⊆ ((ringLines (lines ++ [line])).map (ringKey io)).toFinset := by
      rw [hlines, List.map_append, List.toFinset_append]
      exact Finset.subset_union_left
    have hrows : ∀ r ∈ ring, ∃ l ∈ ringLines (lines ++ [line]), r = ringRow io l := by
      intro r hr
      obtain ⟨l, hl, heq⟩ := h.rows r hr
      exact ⟨l, by rw [hlines]; exact List.mem_append_left _ hl, heq⟩
    -- a key that is among the newest now was so before, or is the key of the line
    have hnewest : ∀ k ∈ top activityRingRows ((ringLines (lines ++ [line])).map (ringKey io)).toFinset,
        k = ringKey io line ∨ k ∈ (ring.map RingRow.key).toFinset := by
      intro k hk
      have hmem := top_subset _ _ hk
      rw [hlines, List.map_append, List.toFinset_append, Finset.mem_union] at hmem
      obtain hmem | hmem := hmem
      · exact Or.inr (h.newest (mem_top_of_subset hsub hmem hk))
      · exact Or.inl (by simpa using hmem)
    rw [if_pos hstep]
    by_cases hin : (ringRow io line).key ∈ ring.map RingRow.key
    · rw [if_pos hin]
      refine ⟨h.nodup, hrows, fun k hk => ?_⟩
      obtain rfl | hk := hnewest k hk
      · exact List.mem_toFinset.mpr hin
      · exact hk
    · rw [if_neg hin]
      refine ⟨?_, ?_, fun k hk => ?_⟩
      · rw [List.map_append, List.nodup_append]
        refine ⟨h.nodup, List.nodup_singleton _, fun a ha b hb heq => ?_⟩
        rw [List.map_singleton, List.mem_singleton] at hb
        exact hin (hb ▸ heq ▸ ha)
      · intro r hr
        obtain hr | hr := List.mem_append.mp hr
        · exact hrows r hr
        · exact ⟨line, by rw [hlines]; simp, List.mem_singleton.mp hr⟩
      · rw [List.mem_toFinset, List.map_append, List.mem_append]
        obtain rfl | hk := hnewest k hk
        · exact Or.inr (List.mem_singleton_self _)
        · exact Or.inl (List.mem_toFinset.mp hk)
  · have hlines : ringLines (lines ++ [line]) = ringLines lines := by rw [ringLines_concat, if_neg hstep]
    rw [if_neg hstep]
    refine ⟨h.nodup, ?_, ?_⟩
    · rw [hlines]
      exact h.rows
    · rw [hlines]
      exact h.newest

/-- After settling the rows are the newest ones. -/
theorem RingInv.mem_settleRing {lines : List Text} {ring : List RingRow} (h : RingInv io lines ring) {r : RingRow} :
    r ∈ settleRing ring ↔ r ∈ ring ∧ r.key ∈ top activityRingRows ((ringLines lines).map (ringKey io)).toFinset := by
  rw [settleRing, mem_trim (by decide) h.nodup, top_eq_of_between h.newest h.subset]

theorem RingInv.settle {lines : List Text} {ring : List RingRow} (h : RingInv io lines ring) :
    RingInv io lines (settleRing ring) := by
  refine ⟨h.nodup.sublist ((trim_sublist _ _ _).map _), fun r hr => h.rows r (h.mem_settleRing.mp hr).1, fun k hk => ?_⟩
  have hmem := h.newest hk
  rw [List.mem_toFinset] at hmem ⊢
  obtain ⟨r, hr, rfl⟩ := List.mem_map.mp hmem
  exact List.mem_map_of_mem (h.mem_settleRing.mpr ⟨hr, hk⟩)

theorem ringInv_run (events : List Event) : RingInv io (applied events) (run io events).activityRing := by
  induction events using List.reverseRecOn with
  | nil =>
      refine ⟨List.nodup_nil, (fun r hr => nomatch hr), ?_⟩
      exact top_subset _ _
  | append_singleton events e ih =>
      cases e with
      | settle =>
          rw [run_concat, applied_concat_settle]
          exact ih.settle
      | apply line =>
          rw [run_concat, applied_concat_apply]
          exact ih.apply line

/-- The lines in a ring that was settled. -/
theorem mem_ring {events : List Event} (hdigest : ∀ a ∈ applied events, ∀ b ∈ applied events, io.digest a = io.digest b → a = b) (line : Text) :
    line ∈ (run io (events ++ [.settle])).activityRing.map RingRow.body ↔
      line ∈ ringLines (applied events) ∧ ringKey io line ∈ top activityRingRows ((ringLines (applied events)).map (ringKey io)).toFinset := by
  have hinv := @ringInv_run io events
  rw [run_concat]
  change line ∈ (settleRing _).map RingRow.body ↔ _
  constructor
  · intro h
    obtain ⟨r, hr, hbody⟩ := List.mem_map.mp h
    obtain ⟨hr, htop⟩ := hinv.mem_settleRing.mp hr
    obtain ⟨l, hl, rfl⟩ := hinv.rows r hr
    obtain rfl : l = line := hbody
    exact ⟨hl, htop⟩
  · rintro ⟨hline, htop⟩
    have hkey := hinv.newest htop
    rw [List.mem_toFinset] at hkey
    obtain ⟨r, hr, hreq⟩ := List.mem_map.mp hkey
    obtain ⟨l, hl, rfl⟩ := hinv.rows r hr
    obtain rfl : l = line := ringKey_injOn hdigest (List.mem_filter.mp hl).1 (List.mem_filter.mp hline).1 hreq
    exact List.mem_map.mpr ⟨_, hinv.mem_settleRing.mpr ⟨hr, htop⟩, rfl⟩

end ring

/-! ### Any read order -/

section order

variable {io} {κ α : Type*} [DecidableEq κ]

/-- The newest rows of each key have one spelling of their time. -/
def Agree (row : Text → Option (κ × Text × ℤ)) (lines : Finset Text) : Prop :=
  ∀ a ∈ lines, ∀ b ∈ lines, ∀ key time time', row a = some (key, time) → row b = some (key, time') → time.2 = time'.2 →
    (∀ c ∈ lines, ∀ time'', row c = some (key, time'') → time''.2 ≤ time.2) → time.1 = time'.1

def TiesAgree (io : Io) (lines : Finset Text) : Prop := Agree (taskRow io) lines ∧ Agree (runRow io) lines

/-- The lines were applied, each at least once. -/
def Applies (events : List Event) (lines : Finset Text) : Prop := ∀ l, l ∈ applied events ↔ l ∈ lines

theorem mem_ofKey_filterMap {entry : Text → Option (κ × α)} {lines : List Text} {key : κ} {a : α} :
    a ∈ ofKey key (lines.filterMap entry) ↔ ∃ line ∈ lines, entry line = some (key, a) := by
  rw [mem_ofKey, List.mem_filterMap]

/-- The newest element of a key for two orders of the same lines. -/
theorem newest_ofKey_congr {S : Type*} [LinearOrder S] {stamp : α → S} {entry : Text → Option (κ × α)} {lines : Finset Text}
    {events events' : List Event} (h : Applies events lines) (h' : Applies events' lines) (key : κ)
    (hagree : ∀ l ∈ lines, ∀ l' ∈ lines, ∀ a b, entry l = some (key, a) → entry l' = some (key, b) → stamp a = stamp b →
      (∀ c ∈ lines, ∀ d, entry c = some (key, d) → stamp d ≤ stamp a) → a = b) :
    Lib.newest stamp (ofKey key ((applied events).filterMap entry)) = Lib.newest stamp (ofKey key ((applied events').filterMap entry)) := by
  have hcongr := @newest_congr α α S _ stamp (ofKey key ((applied events).filterMap entry))
    (ofKey key ((applied events').filterMap entry)) id ?_ ?_
  · simpa using hcongr
  · intro a
    simp only [mem_ofKey_filterMap, h _, h' _]
  · simp only [mem_ofKey_filterMap, h _]
    rintro a ⟨l, hl, ha⟩ b ⟨l', hl', hb⟩ hstamp hmax
    exact hagree l hl l' hl' a b ha hb hstamp fun c hc d hd => hmax d ⟨c, hc, hd⟩

theorem agree_newest {row : Text → Option (κ × Text × ℤ)} {lines : Finset Text} (hagree : Agree row lines)
    {events events' : List Event} (h : Applies events lines) (h' : Applies events' lines) (key : κ) :
    Lib.newest Prod.snd (ofKey key ((applied events).filterMap row)) = Lib.newest Prod.snd (ofKey key ((applied events').filterMap row)) := by
  refine newest_ofKey_congr h h' key fun l hl l' hl' a b ha hb hstamp hmax => ?_
  exact Prod.ext (hagree l hl l' hl' key a b ha hb hstamp hmax) hstamp

/-- Stamps with the digest of their line are never equal for two lines. -/
theorem digest_newest {entry : Text → Option (κ × α)} {stamp : α → RunWorkerStamp}
    (hstamp : ∀ l k a, entry l = some (k, a) → (ofLex (stamp a)).2 = io.digest l) {lines : Finset Text}
    (hdigest : ∀ a ∈ lines, ∀ b ∈ lines, io.digest a = io.digest b → a = b) {events events' : List Event}
    (h : Applies events lines) (h' : Applies events' lines) (key : κ) :
    Lib.newest stamp (ofKey key ((applied events).filterMap entry)) = Lib.newest stamp (ofKey key ((applied events').filterMap entry)) := by
  refine newest_ofKey_congr h h' key fun l hl l' hl' a b ha hb heq _ => ?_
  have hline : l = l' := by
    apply hdigest l hl l' hl'
    rw [← hstamp l key a ha, ← hstamp l' key b hb, heq]
  rw [hline] at ha
  exact congrArg Prod.snd (Option.some.inj (ha.symm.trans hb))

theorem digest_newestEntry (l : Text) (k : Text × Text) (a : RunWorkerStamp × ℤ × Text × Text) (h : newestEntry io l = some (k, a)) :
    (ofLex a.1).2 = io.digest l := by
  obtain ⟨w, -, heq⟩ := Option.map_eq_some_iff.mp h
  obtain ⟨-, rfl⟩ := Prod.mk.inj heq
  rfl

theorem digest_fieldEntry (f : RunWorkerField) (l : Text) (k : Text × Text) (a : Text × RunWorkerStamp)
    (h : fieldEntry io f l = some (k, a)) : (ofLex a.2).2 = io.digest l := by
  obtain ⟨w, -, hw⟩ := Option.bind_eq_some_iff.mp h
  obtain ⟨value, -, heq⟩ := Option.map_eq_some_iff.mp hw
  obtain ⟨-, rfl⟩ := Prod.mk.inj heq
  rfl

theorem worker_eq {r r' : Option RunWorker}
    (hnewest : (r.bind fun r => some (r.newest, r.tsMs, r.ts, r.body)) = r'.bind fun r => some (r.newest, r.tsMs, r.ts, r.body))
    (hfields : ∀ f, (r.bind fun r => r.fields f) = r'.bind fun r => r.fields f) :
    (r.map fun r => (r.tsMs, r.ts, r.body, r.newest, r.fields)) = r'.map fun r => (r.tsMs, r.ts, r.body, r.newest, r.fields) := by
  cases r with
  | none =>
      cases r' with
      | none => rfl
      | some r' => cases hnewest
  | some r =>
      cases r' with
      | none => cases hnewest
      | some r' =>
          simp only [Option.bind_some, Option.some.injEq, Prod.mk.injEq] at hnewest
          obtain ⟨h1, h2, h3, h4⟩ := hnewest
          have hfun : r.fields = r'.fields := funext hfields
          rw [Option.map_some, Option.map_some, h1, h2, h3, h4, hfun]

/-- The activity of tasks and of runs, and the workers, in terms of the lines. -/
theorem content_settle (events : List Event) :
    (run io (events ++ [.settle])).content.task =
        (fun task => Lib.newest Prod.snd (ofKey task ((applied events).filterMap (taskRow io)))) ∧
      (run io (events ++ [.settle])).content.run =
        (fun key => Lib.newest Prod.snd (ofKey key ((applied events).filterMap (runRow io)))) ∧
      (run io (events ++ [.settle])).content.worker = fun key =>
        (((applied events).foldl (applyRunWorker io) ∅).get? key).map fun r => (r.tsMs, r.ts, r.body, r.newest, r.fields) := by
  obtain ⟨htask, hrun, hworker⟩ := @run_tables io (events ++ [.settle])
  rw [applied_concat_settle] at htask hrun hworker
  refine ⟨funext fun task => ?_, funext fun key => ?_, ?_⟩
  · rw [← get?_taskActivity, ← htask]
    rfl
  · rw [← get?_runActivity, ← hrun]
    rfl
  · rw [← hworker]
    rfl

theorem applied_map_apply (lines : List Text) : applied (lines.map Event.apply) = lines := by
  rw [applied, List.filterMap_map]
  exact List.filterMap_some

/-- One of two newest lines that disagree, applied first. -/
theorem newest_apply_first {row : Text → Option (κ × Text × ℤ)} {lines : Finset Text} {a : Text} {key : κ} {time : Text × ℤ}
    (ha : row a = some (key, time)) (hmax : ∀ c ∈ lines, ∀ time', row c = some (key, time') → time'.2 ≤ time.2) :
    Lib.newest Prod.snd (ofKey key ((applied ((a :: lines.toList).map Event.apply)).filterMap row)) = some time := by
  rw [applied_map_apply, List.filterMap_cons_some ha]
  have hkey : ofKey key ((key, time) :: lines.toList.filterMap row) = time :: ofKey key (lines.toList.filterMap row) := by
    simp [ofKey]
  rw [hkey]
  refine newest_cons_of_le fun b hb => ?_
  obtain ⟨c, hc, hrow⟩ := mem_ofKey_filterMap.mp hb
  exact hmax c (Finset.mem_toList.mp hc) b hrow

theorem applies_first {lines : Finset Text} {a : Text} (ha : a ∈ lines) : Applies ((a :: lines.toList).map Event.apply) lines := by
  intro l
  rw [applied_map_apply, List.mem_cons, Finset.mem_toList]
  exact ⟨fun h => h.elim (fun heq => heq ▸ ha) id, Or.inr⟩

/-- If the newest element does not depend on the order, the newest rows agree. -/
theorem agree_of_newest {row : Text → Option (κ × Text × ℤ)} {lines : Finset Text}
    (h : ∀ events events', Applies events lines → Applies events' lines → ∀ key : κ,
      Lib.newest Prod.snd (ofKey key ((applied events).filterMap row)) = Lib.newest Prod.snd (ofKey key ((applied events').filterMap row))) :
    Agree row lines := by
  intro a ha b hb key time time' hrow hrow' hsame hmax
  have hfirst := h _ _ (applies_first ha) (applies_first hb) key
  rw [newest_apply_first hrow hmax, newest_apply_first hrow' (fun c hc time'' hc' => hsame ▸ hmax c hc time'' hc')] at hfirst
  exact congrArg Prod.fst (Option.some.inj hfirst)

end order

/-- For every finite set of lines with distinct digests: the content of the tables is the same for every order and number in
which the lines are applied and every placement of the settling before a last one, if and only if the newest
rows of each task and of each run have one spelling of their time. -/
theorem projections_read_order (lines : Finset Text)
    (hdigest : ∀ a ∈ lines, ∀ b ∈ lines, io.digest a = io.digest b → a = b) :
    (∀ events events', Applies events lines → Applies events' lines →
      (run io (events ++ [.settle])).content = (run io (events' ++ [.settle])).content) ↔ TiesAgree io lines := by
  constructor
  · intro h
    constructor
    · refine agree_of_newest fun events events' happlies happlies' key => ?_
      have htask := congrArg (fun c => c.task key) (h events events' happlies happlies')
      simpa only [(content_settle events).1, (content_settle events').1] using htask
    · refine agree_of_newest fun events events' happlies happlies' key => ?_
      have hrun := congrArg (fun c => c.run key) (h events events' happlies happlies')
      simpa only [(content_settle events).2.1, (content_settle events').2.1] using hrun
  · rintro ⟨htasks, hruns⟩ events events' h h'
    obtain ⟨htask, hrun, hworker⟩ := @content_settle io events
    obtain ⟨htask', hrun', hworker'⟩ := @content_settle io events'
    have hring : (run io (events ++ [.settle])).content.ring = (run io (events' ++ [.settle])).content.ring := by
      have hlines : ∀ l, l ∈ ringLines (applied events) ↔ l ∈ ringLines (applied events') := by
        intro l
        rw [ringLines, ringLines, List.mem_filter, List.mem_filter, h, h']
      have hkeys : ((ringLines (applied events)).map (ringKey io)).toFinset = ((ringLines (applied events')).map (ringKey io)).toFinset := by
        ext k
        simp only [List.mem_toFinset, List.mem_map, hlines]
      ext line
      change line ∈ List.map _ _ ↔ line ∈ List.map _ _
      rw [mem_ring fun a ha b hb => hdigest a ((h a).mp ha) b ((h b).mp hb),
        mem_ring fun a ha b hb => hdigest a ((h' a).mp ha) b ((h' b).mp hb), hlines, hkeys]
    have hworkers : (run io (events ++ [.settle])).content.worker = (run io (events' ++ [.settle])).content.worker := by
      rw [hworker, hworker']
      funext key
      apply worker_eq
      · rw [get?_runWorker_newest, get?_runWorker_newest]
        exact digest_newest digest_newestEntry hdigest h h' key
      · intro f
        rw [get?_runWorker_field, get?_runWorker_field]
        exact digest_newest (digest_fieldEntry f) hdigest h h' key
    have htasks' : (run io (events ++ [.settle])).content.task = (run io (events' ++ [.settle])).content.task := by
      rw [htask, htask']
      exact funext fun task => agree_newest htasks h h' task
    have hruns' : (run io (events ++ [.settle])).content.run = (run io (events' ++ [.settle])).content.run := by
      rw [hrun, hrun']
      exact funext fun key => agree_newest hruns h h' key
    cases hc : (run io (events ++ [.settle])).content
    cases hc' : (run io (events' ++ [.settle])).content
    simp only [hc, hc'] at hring hworkers htasks' hruns'
    rw [hring, hworkers, htasks', hruns']

/-- Two rows of one run of a task, a second apart. -/
def earlyLine : Text := "\x7b\"ts\":\"2026-10-02T13:12:49Z\",\"step\":\"a\",\"task_id\":\"T\",\"run_id\":\"r\"\x7d".toList

def lateLine : Text := "\x7b\"ts\":\"2026-10-02T13:12:50Z\",\"step\":\"b\",\"task_id\":\"T\",\"run_id\":\"r\"\x7d".toList

/-- The runtime on the two lines. -/
def apartIo : Io where
  jsonParse t :=
    let row := fun ts step : String => Json.obj [("ts".toList, .str ts.toList), ("step".toList, .str step.toList),
      ("task_id".toList, .str "T".toList), ("run_id".toList, .str "r".toList)]
    if t = earlyLine then some (row "2026-10-02T13:12:49Z" "a")
    else if t = lateLine then some (row "2026-10-02T13:12:50Z" "b") else none
  dateParse t :=
    if t = "2026-10-02T13:12:49Z".toList then some 1790946769000
    else if t = "2026-10-02T13:12:50Z".toList then some 1790946770000 else none
  digest t := if t = earlyLine then 6211959617801597215 else -7416163485728937317

/-- Two lines whose rows have different times cannot tie. -/
theorem agree_of_two {row : Text → Option (κ × Text × ℤ)} {a b : Text}
    (h : ∀ key time time', row a = some (key, time) → row b = some (key, time') → time.2 ≠ time'.2) :
    Agree row {a, b} := by
  intro x hx y hy key time time' hrow hrow' hsame _
  rw [Finset.mem_insert, Finset.mem_singleton] at hx hy
  rcases hx with rfl | rfl <;> rcases hy with rfl | rfl
  · rw [hrow] at hrow'
    rw [(Prod.mk.inj (Option.some.inj hrow')).2]
  · exact absurd hsame (h key time time' hrow hrow')
  · exact absurd hsame.symm (h key time' time hrow' hrow)
  · rw [hrow] at hrow'
    rw [(Prod.mk.inj (Option.some.inj hrow')).2]

theorem tiesAgree_apart : TiesAgree apartIo {earlyLine, lateLine} := by
  have htaskEarly : taskRow apartIo earlyLine = some ("T".toList, "2026-10-02T13:12:49Z".toList, 1790946769000) := by
    decide +kernel
  have htaskLate : taskRow apartIo lateLine = some ("T".toList, "2026-10-02T13:12:50Z".toList, 1790946770000) := by
    decide +kernel
  have hrunEarly : runRow apartIo earlyLine =
      some (("T".toList, "r".toList), "2026-10-02T13:12:49Z".toList, 1790946769000) := by decide +kernel
  have hrunLate : runRow apartIo lateLine =
      some (("T".toList, "r".toList), "2026-10-02T13:12:50Z".toList, 1790946770000) := by decide +kernel
  constructor
  · refine agree_of_two fun key time time' h h' => ?_
    rw [← (Prod.mk.inj (Option.some.inj (htaskEarly.symm.trans h))).2,
      ← (Prod.mk.inj (Option.some.inj (htaskLate.symm.trans h'))).2]
    decide
  · refine agree_of_two fun key time time' h h' => ?_
    rw [← (Prod.mk.inj (Option.some.inj (hrunEarly.symm.trans h))).2,
      ← (Prod.mk.inj (Option.some.inj (hrunLate.symm.trans h'))).2]
    decide

/-- The two rows in whatever order, number and placement of the settling give one content, where the task was last
active at the later time. -/
theorem projections_read_order_apart :
    (∀ a ∈ ({earlyLine, lateLine} : Finset Text), ∀ b ∈ ({earlyLine, lateLine} : Finset Text),
        apartIo.digest a = apartIo.digest b → a = b) ∧
      (∀ events events', Applies events {earlyLine, lateLine} → Applies events' {earlyLine, lateLine} →
        (run apartIo (events ++ [.settle])).content = (run apartIo (events' ++ [.settle])).content) ∧
      (run apartIo [.apply lateLine, .settle, .apply earlyLine, .settle]).content.task "T".toList =
        some ("2026-10-02T13:12:50Z".toList, 1790946770000) := by
  have hdigest : ∀ a ∈ ({earlyLine, lateLine} : Finset Text), ∀ b ∈ ({earlyLine, lateLine} : Finset Text),
      apartIo.digest a = apartIo.digest b → a = b := by
    have hne : apartIo.digest earlyLine ≠ apartIo.digest lateLine := by decide +kernel
    intro a ha b hb h
    rw [Finset.mem_insert, Finset.mem_singleton] at ha hb
    rcases ha with rfl | rfl <;> rcases hb with rfl | rfl
    · rfl
    · exact absurd h hne
    · exact absurd h.symm hne
    · rfl
  exact ⟨hdigest, (projections_read_order apartIo _ hdigest).mpr tiesAgree_apart, by decide +kernel⟩

/-- A row of a task whose time has no milliseconds. -/
def shortLine : Text := "\x7b\"ts\":\"2026-10-02T13:12:49Z\",\"step\":\"a\",\"task_id\":\"T\"\x7d".toList

/-- The same time with milliseconds. -/
def longLine : Text := "\x7b\"ts\":\"2026-10-02T13:12:49.000Z\",\"step\":\"a\",\"task_id\":\"T\"\x7d".toList

/-- The runtime on the two lines. -/
def tiedIo : Io where
  jsonParse t :=
    let row := fun ts : String => Json.obj [("ts".toList, .str ts.toList), ("step".toList, .str "a".toList), ("task_id".toList, .str "T".toList)]
    if t = shortLine then some (row "2026-10-02T13:12:49Z")
    else if t = longLine then some (row "2026-10-02T13:12:49.000Z") else none
  dateParse t := if t = "2026-10-02T13:12:49Z".toList ∨ t = "2026-10-02T13:12:49.000Z".toList then some 1790946769000 else none
  digest t := if t = shortLine then 6228205346630077704 else 7359141747813086694

/-- The activity of the task is the line that was read first. -/
theorem taskActivity_depends_on_order :
    tiedIo.digest shortLine ≠ tiedIo.digest longLine ∧
      ¬∀ events events', Applies events {shortLine, longLine} → Applies events' {shortLine, longLine} →
        (run tiedIo (events ++ [.settle])).content = (run tiedIo (events' ++ [.settle])).content := by
  refine ⟨by decide +kernel, fun h => ?_⟩
  have happlies : Applies [.apply shortLine, .apply longLine] {shortLine, longLine} := by
    intro l
    simp [applied]
  have happlies' : Applies [.apply longLine, .apply shortLine] {shortLine, longLine} := by
    intro l
    simp [applied, or_comm]
  have hsame := congrArg (fun c => c.task "T".toList) (h _ _ happlies happlies')
  have hshort : (run tiedIo ([.apply shortLine, .apply longLine] ++ [.settle])).taskActivity.get? "T".toList =
      some ("2026-10-02T13:12:49Z".toList, 1790946769000) := by decide +kernel
  have hlong : (run tiedIo ([.apply longLine, .apply shortLine] ++ [.settle])).taskActivity.get? "T".toList =
      some ("2026-10-02T13:12:49.000Z".toList, 1790946769000) := by decide +kernel
  have htexts := hshort.symm.trans (hsame.trans hlong)
  exact absurd htexts (by decide +kernel)

end Remudero.Ledger.Projections
