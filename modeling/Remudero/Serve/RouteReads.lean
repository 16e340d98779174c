import Remudero.Lib.Record
import Remudero.Lib.Text
import Remudero.Lib.Transition

/-! # Reads per route and hour

`createRouteReadRollup` of `lib/route-read-rollup.ts`.  The active generation of the server counts the reads
of each path by caller.  When an hour is over, `flush` emits its row and folds it into the totals of the state
file.  When the generation stops inside an hour, `handOff` leaves the partial hour in the state file as `carry`,
and a later generation merges it into the row of the hour or emits it first.

`handOff` keeps one carry only.  A generation that starts in a later hour than the carried one, counts reads
and stops before its own hour is over replaces the carry, and the reads in it are gone (`carry_replaced`).
Otherwise every read is in the totals or in the carry, once: `route_reads_conserved`.

Instants and hours are milliseconds; the source compares their ISO texts, which sort alike.  The latencies,
stale responses and streams of the same rows are left out. -/

namespace Remudero.Serve

open Remudero.Lib

inductive RouteReadCaller where
  | console
  | fleet
deriving DecidableEq, Repr

/-- Reads by caller; a missing entry of the source is `0`. -/
abbrev Counts := RouteReadCaller → ℕ

/-- When each caller last read each path. -/
abbrev LastReads := Record Text (RouteReadCaller → Option ℤ)

structure RouteReadsRow where
  hour : ℤ
  windowStart : ℤ
  windowEnd : ℤ
  reads : ℕ
  routes : Record Text Counts
  isPartial : Bool

structure RouteReadTotals where
  reads : ℕ
  lastAt : Option ℤ
deriving DecidableEq, Repr

/-- The partial hour of a generation that stopped. -/
structure Carry where
  row : RouteReadsRow
  last : LastReads

/-- What the state file holds. -/
structure RouteReadsState where
  since : Option ℤ
  hours : ℕ
  routes : Record Text (RouteReadCaller → RouteReadTotals)
  lastHour : Option ℤ
  carry : Option Carry

def emptyState : RouteReadsState := ⟨none, 0, ∅, none, none⟩

/-- `HOUR_MS`. -/
def hourMs : ℤ := 3600000

def hourOf (nowMs : ℤ) : ℤ := nowMs / hourMs * hourMs

def later : Option ℤ → Option ℤ → Option ℤ
  | none, b => b
  | a, none => a
  | some a, some b => some (if a > b then a else b)

/-! ### Rows -/

/-- Add the counts of one row. -/
def addRoutes (into : Record Text Counts) (row : RouteReadsRow) : Record Text Counts :=
  into.upsertAll (fun _ entry counts caller => (entry.getD fun _ => 0) caller + counts caller) row.routes.entries

/-- Two generations' counts for one hour as one row. -/
def mergeRouteReadRows (a b : RouteReadsRow) : RouteReadsRow where
  hour := a.hour
  windowStart := if a.windowStart < b.windowStart then a.windowStart else b.windowStart
  windowEnd := if a.windowEnd > b.windowEnd then a.windowEnd else b.windowEnd
  reads := a.reads + b.reads
  routes := addRoutes (addRoutes ∅ a) b
  isPartial := false

def mergeLast (into «from» : LastReads) : LastReads :=
  into.upsertAll (fun _ entry byCaller caller => later ((entry.getD fun _ => none) caller) (byCaller caller)) «from».entries

/-- Add the reads of one path to its totals. -/
def foldTotals (row : RouteReadsRow) (last : LastReads) (path : Text) (entry : Option (RouteReadCaller → RouteReadTotals))
    (counts : Counts) (caller : RouteReadCaller) : RouteReadTotals :=
  let prior := (entry.getD fun _ => ⟨0, none⟩) caller
  let n := counts caller
  if n = 0 then prior
  else
    let at_ := ((last.get? path).bind (· caller)).getD row.windowEnd
    { reads := prior.reads + n, lastAt := later prior.lastAt (some at_) }

def fold (state : RouteReadsState) (row : RouteReadsRow) (last : LastReads) : RouteReadsState :=
  { state with
    since := match state.since with
      | none => some row.windowStart
      | some since => some (if row.windowStart < since then row.windowStart else since)
    hours := state.hours + if row.isPartial then 0 else 1
    routes := state.routes.upsertAll (foldTotals row last) row.routes.entries }

/-! ### One generation -/

/-- The variables of the rollup, the state file and the rows written to the ledger. -/
structure Rollup where
  file : Option RouteReadsState
  state : RouteReadsState
  active : Bool
  bucket : Option ℤ
  windowStart : ℤ
  counts : Record Text Counts
  last : LastReads
  emitted : List RouteReadsRow

namespace Rollup

/-- No generation has run yet. -/
def fresh : Rollup := ⟨none, emptyState, false, none, 0, ∅, ∅, []⟩

def readFile (s : Rollup) : RouteReadsState := s.file.getD s.state

def resetHour (s : Rollup) : Rollup := { s with counts := ∅, last := ∅ }

def pendingRow (s : Rollup) (bucket endMs : ℤ) : RouteReadsRow where
  hour := bucket
  windowStart := s.windowStart
  windowEnd := endMs
  reads := (s.counts.entries.map fun e => e.2 .console + e.2 .fleet).sum
  routes := s.counts
  isPartial := false

def persist (s : Rollup) (next : RouteReadsState) : Rollup := { s with state := next, file := some next }

def emit (s : Rollup) (row : RouteReadsRow) : Rollup := { s with emitted := s.emitted ++ [row] }

/-- Emit and fold the row of the hour; the last part of `flush`. -/
def closeHour (s : Rollup) (next : RouteReadsState) (row : RouteReadsRow) (last : LastReads) : Rollup :=
  let s := s.emit row
  (s.persist { fold next row last with lastHour := some row.hour }).resetHour

/-- Close the hour: its one row, with a carried partial hour merged in or written first. -/
def flush (s : Rollup) (bucket endMs : ℤ) : Rollup :=
  let row := s.pendingRow bucket endMs
  let next := s.readFile
  match next.carry with
  | none => s.closeHour next row s.last
  | some carry =>
      if carry.row.hour ≤ row.hour then
        let next := { next with carry := none }
        if carry.row.hour = row.hour ∨ next.lastHour.any (carry.row.hour ≤ ·) then
          let carried :=
            if carry.row.hour = row.hour then carry.row
            else { carry.row with hour := row.hour, windowStart := row.windowStart, windowEnd := row.windowEnd }
          s.closeHour next (mergeRouteReadRows row carried) (mergeLast s.last carry.last)
        else
          let partialRow := { carry.row with isPartial := true }
          let s := s.emit partialRow
          s.closeHour { fold next partialRow (mergeLast ∅ carry.last) with lastHour := some carry.row.hour } row s.last
      else s.closeHour next row s.last

/-- Leave the partial hour in the state file. -/
def handOff (s : Rollup) (endMs : ℤ) : Rollup :=
  match s.bucket with
  | none => s
  | some bucket =>
      let row := s.pendingRow bucket endMs
      if row.reads = 0 then s
      else
        let lastReads := s.last
        let s := s.resetHour
        let next := s.readFile
        match next.carry with
        | some carry =>
            if carry.row.hour = row.hour then
              s.persist { next with
                carry := some ⟨mergeRouteReadRows carry.row row, mergeLast lastReads carry.last⟩ }
            else s.persist { next with carry := some ⟨row, lastReads⟩ }
        | none => s.persist { next with carry := some ⟨row, lastReads⟩ }

def rollTo (s : Rollup) (nowMs : ℤ) : Rollup :=
  let hour := hourOf nowMs
  match s.bucket with
  | none => { s with bucket := some hour, windowStart := nowMs }
  | some bucket =>
      if hour > bucket then { s.flush bucket (bucket + hourMs) with bucket := some hour, windowStart := hour }
      else s

def count (s : Rollup) (path : Text) (caller : RouteReadCaller) (nowMs : ℤ) : Rollup :=
  if s.active then
    let s := s.rollTo nowMs
    let byCaller := (s.counts.get? path).getD fun _ => 0
    let lastOf := (s.last.get? path).getD fun _ => none
    { s with
      counts := s.counts.set path (Function.update byCaller caller (byCaller caller + 1))
      last := s.last.set path (Function.update lastOf caller (some nowMs)) }
  else s

/-- A new process: what it knows is what the state file says. -/
def start (s : Rollup) (nowMs : ℤ) : Rollup :=
  let s := { s with active := true, state := s.file.getD emptyState, bucket := none }
  s.resetHour.rollTo nowMs

/-- `stop` reads the clock twice. -/
def stop (s : Rollup) (tickMs endMs : ℤ) : Rollup :=
  { (s.rollTo tickMs).handOff endMs with active := false }

end Rollup

/-! ### Generations one after another -/

inductive RollupEvent where
  | start (nowMs : ℤ)
  | count (path : Text) (caller : RouteReadCaller) (nowMs : ℤ)
  | tick (nowMs : ℤ)
  | stop (tickMs endMs : ℤ)
deriving DecidableEq, Repr

namespace Rollup

/-- One event; a generation starts when none is active, and only the active one counts, ticks and stops. -/
def next (s : Rollup) : RollupEvent → Option Rollup
  | .start nowMs => if s.active then none else some (s.start nowMs)
  | .count path caller nowMs => if s.active then some (s.count path caller nowMs) else none
  | .tick nowMs => if s.active then some (s.rollTo nowMs) else none
  | .stop tickMs endMs => if s.active then some (s.stop tickMs endMs) else none

def Step (s : Rollup) (e : RollupEvent) (t : Rollup) : Prop := s.next e = some t

end Rollup

/-! ### Where the reads are -/

/-- The reads of a path by a caller in the routes of a row. -/
def readsOf (routes : Record Text Counts) (path : Text) (caller : RouteReadCaller) : ℕ :=
  ((routes.get? path).getD fun _ => 0) caller

/-- The folded reads of a path by a caller. -/
def totalOf (state : RouteReadsState) (path : Text) (caller : RouteReadCaller) : ℕ :=
  (((state.routes.get? path).getD fun _ => ⟨0, none⟩) caller).reads

def carriedOf (state : RouteReadsState) (path : Text) (caller : RouteReadCaller) : ℕ :=
  state.carry.elim 0 fun carry => readsOf carry.row.routes path caller

def emittedOf (rows : List RouteReadsRow) (path : Text) (caller : RouteReadCaller) : ℕ :=
  (rows.map fun row => readsOf row.routes path caller).sum

/-- The reads counted in a run. -/
def countedOf (es : List RollupEvent) (path : Text) (caller : RouteReadCaller) : ℕ :=
  es.countP fun
    | .count p c _ => p = path && c = caller
    | _ => false

section Rows

variable (path : Text) (caller : RouteReadCaller)

@[simp] theorem readsOf_empty : readsOf ∅ path caller = 0 := rfl

theorem readsOf_addRoutes (into : Record Text Counts) (row : RouteReadsRow) :
    readsOf (addRoutes into row) path caller = readsOf into path caller + readsOf row.routes path caller := by
  unfold readsOf addRoutes
  rw [Record.get?_upsertAll _ _ row.routes.nodup, ← Record.get?]
  cases row.routes.get? path <;> simp

theorem readsOf_mergeRouteReadRows (a b : RouteReadsRow) :
    readsOf (mergeRouteReadRows a b).routes path caller =
      readsOf a.routes path caller + readsOf b.routes path caller := by
  simp [mergeRouteReadRows, readsOf_addRoutes]

theorem foldTotals_reads (row : RouteReadsRow) (last : LastReads)
    (entry : Option (RouteReadCaller → RouteReadTotals)) (counts : Counts) :
    (foldTotals row last path entry counts caller).reads =
      ((entry.getD fun _ => ⟨0, none⟩) caller).reads + counts caller := by
  simp only [foldTotals]
  split
  next hzero => simp [hzero]
  next => rfl

theorem totalOf_fold (state : RouteReadsState) (row : RouteReadsRow) (last : LastReads) :
    totalOf (fold state row last) path caller = totalOf state path caller + readsOf row.routes path caller := by
  unfold totalOf fold readsOf
  rw [Record.get?_upsertAll _ _ row.routes.nodup, ← Record.get?]
  cases row.routes.get? path with
  | none => simp
  | some counts => simp [foldTotals_reads]

@[simp] theorem emittedOf_append (rows : List RouteReadsRow) (row : RouteReadsRow) :
    emittedOf (rows ++ [row]) path caller = emittedOf rows path caller + readsOf row.routes path caller := by
  simp [emittedOf]

end Rows

namespace Rollup

section Balance

variable {s t : Rollup}

/-- What the state file holds of a path and caller, and what was emitted or is carried. -/
def held (s : Rollup) (path : Text) (caller : RouteReadCaller) : ℕ :=
  totalOf s.readFile path caller + carriedOf s.readFile path caller

def sent (s : Rollup) (path : Text) (caller : RouteReadCaller) : ℕ :=
  emittedOf s.emitted path caller + carriedOf s.readFile path caller

/-- No read got lost or was added on the way from `s` to `t`. -/
def Balanced (s t : Rollup) : Prop := ∀ path caller,
  t.held path caller + readsOf t.counts path caller = s.held path caller + readsOf s.counts path caller ∧
  t.sent path caller + readsOf t.counts path caller = s.sent path caller + readsOf s.counts path caller

/-- A closed hour moves the row and the reads of `next` into the file. -/
theorem closeHour_spec (s : Rollup) (next : RouteReadsState) (row : RouteReadsRow) (last : LastReads) (path : Text)
    (caller : RouteReadCaller) :
    (s.closeHour next row last).held path caller =
      totalOf next path caller + carriedOf next path caller + readsOf row.routes path caller ∧
    (s.closeHour next row last).sent path caller =
      emittedOf s.emitted path caller + carriedOf next path caller + readsOf row.routes path caller ∧
    readsOf (s.closeHour next row last).counts path caller = 0 := by
  have htotal := totalOf_fold path caller next row last
  have hcarry : carriedOf (fold next row last) path caller = carriedOf next path caller := rfl
  refine ⟨?_, ?_, rfl⟩
  · show totalOf (fold next row last) path caller + carriedOf (fold next row last) path caller = _
    omega
  · show emittedOf (s.emitted ++ [row]) path caller + carriedOf (fold next row last) path caller = _
    rw [emittedOf_append]
    omega

theorem flush_balanced (s : Rollup) (bucket endMs : ℤ) :
    Balanced s (s.flush bucket endMs) ∧ ∀ path caller, readsOf (s.flush bucket endMs).counts path caller = 0 := by
  have hpending : ∀ path caller, readsOf (s.pendingRow bucket endMs).routes path caller = readsOf s.counts path caller :=
    fun _ _ => rfl
  simp only [flush]
  split
  next hcarry =>
    refine ⟨fun path caller => ?_, fun path caller => (closeHour_spec _ _ _ _ path caller).2.2⟩
    obtain ⟨hheld, hsent, hzero⟩ := closeHour_spec s s.readFile (s.pendingRow bucket endMs) s.last path caller
    have := hpending path caller
    unfold held sent at *
    omega
  next carry hcarry =>
    have hcarried : ∀ path caller, carriedOf s.readFile path caller = readsOf carry.row.routes path caller := by
      intro path caller
      simp [carriedOf, hcarry]
    split
    · split
      · -- the carry is merged into the row
        refine ⟨fun path caller => ?_, fun path caller => (closeHour_spec _ _ _ _ path caller).2.2⟩
        set carried := if carry.row.hour = (s.pendingRow bucket endMs).hour then carry.row else _ with hdef
        have hroutes : carried.routes = carry.row.routes := by
          rw [hdef]
          split <;> rfl
        obtain ⟨hheld, hsent, hzero⟩ := closeHour_spec s { s.readFile with carry := none }
          (mergeRouteReadRows (s.pendingRow bucket endMs) carried) (mergeLast s.last carry.last) path caller
        have hmerge := readsOf_mergeRouteReadRows path caller (s.pendingRow bucket endMs) carried
        have htaken : carriedOf { s.readFile with carry := none } path caller = 0 := rfl
        have htotal : totalOf { s.readFile with carry := none } path caller = totalOf s.readFile path caller := rfl
        rw [hroutes] at hmerge
        have hrow := hpending path caller
        have hc := hcarried path caller
        refine ⟨?_, ?_⟩
        · rw [hheld, hzero]
          unfold held
          omega
        · rw [hsent, hzero]
          unfold sent
          omega
      · -- the carry is emitted before the row
        refine ⟨fun path caller => ?_, fun path caller => (closeHour_spec _ _ _ _ path caller).2.2⟩
        set partialRow : RouteReadsRow := { carry.row with isPartial := true } with hdef
        set next : RouteReadsState := { fold { s.readFile with carry := none } partialRow (mergeLast ∅ carry.last) with
          lastHour := some carry.row.hour } with hnext
        obtain ⟨hheld, hsent, hzero⟩ := closeHour_spec (s.emit partialRow) next (s.pendingRow bucket endMs)
          (s.emit partialRow).last path caller
        have hfold : totalOf next path caller = totalOf s.readFile path caller + readsOf carry.row.routes path caller :=
          totalOf_fold path caller { s.readFile with carry := none } partialRow (mergeLast ∅ carry.last)
        have htaken : carriedOf next path caller = 0 := rfl
        have hemit : emittedOf (s.emit partialRow).emitted path caller =
            emittedOf s.emitted path caller + readsOf carry.row.routes path caller :=
          emittedOf_append path caller s.emitted partialRow
        have hrow := hpending path caller
        have hc := hcarried path caller
        refine ⟨?_, ?_⟩
        · rw [hheld, hzero]
          unfold held
          omega
        · rw [hsent, hzero]
          unfold sent
          omega
    · refine ⟨fun path caller => ?_, fun path caller => (closeHour_spec _ _ _ _ path caller).2.2⟩
      obtain ⟨hheld, hsent, hzero⟩ := closeHour_spec s s.readFile (s.pendingRow bucket endMs) s.last path caller
      have := hpending path caller
      unfold held sent at *
      omega

theorem Balanced.refl (s : Rollup) : Balanced s s := fun _ _ => ⟨rfl, rfl⟩

theorem rollTo_balanced (s : Rollup) (nowMs : ℤ) : Balanced s (s.rollTo nowMs) := by
  simp only [rollTo]
  split
  · exact Balanced.refl s
  next bucket hbucket =>
    split
    · exact (flush_balanced s bucket (bucket + hourMs)).1
    · exact Balanced.refl s

/-- All reads by all callers are zero when their sum is. -/
theorem readsOf_eq_zero_of_sum {counts : Record Text Counts}
    (h : (counts.entries.map fun e => e.2 .console + e.2 .fleet).sum = 0) (path : Text) (caller : RouteReadCaller) :
    readsOf counts path caller = 0 := by
  unfold readsOf
  cases hget : counts.get? path with
  | none => rfl
  | some byCaller =>
      have hmem := List.mem_map_of_mem (f := fun e : Text × Counts => e.2 .console + e.2 .fleet)
        (Record.mem_of_get? hget)
      have hle : byCaller .console + byCaller .fleet ≤ _ := List.single_le_sum (by simp) _ hmem
      cases caller with
      | console =>
          show byCaller .console = 0
          omega
      | fleet =>
          show byCaller .fleet = 0
          omega

/-- The generation has counted reads in the hour in which it started, and the state file carries another hour. -/
def ReplacesCarry (s : Rollup) : RollupEvent → Prop
  | .stop tickMs _ => ∃ bucket carry path caller, s.bucket = some bucket ∧ hourOf tickMs ≤ bucket ∧
      s.readFile.carry = some carry ∧ carry.row.hour ≠ bucket ∧ 0 < readsOf s.counts path caller
  | _ => False

theorem handOff_balanced {bucket : ℤ} (endMs : ℤ) (hbucket : s.bucket = some bucket)
    (hkeep : ∀ carry, s.readFile.carry = some carry → carry.row.hour ≠ bucket →
      ∀ path caller, readsOf s.counts path caller = 0) :
    Balanced s (s.handOff endMs) ∧ ∀ path caller, readsOf (s.handOff endMs).counts path caller = 0 := by
  simp only [handOff, hbucket]
  split
  next hzero => exact ⟨Balanced.refl s, readsOf_eq_zero_of_sum hzero⟩
  next hreads =>
    have hread : s.resetHour.readFile = s.readFile := rfl
    rw [hread]
    split
    next carry hcarry =>
      have hcarried : ∀ path caller, carriedOf s.readFile path caller = readsOf carry.row.routes path caller := by
        intro path caller
        simp [carriedOf, hcarry]
      split
      next hsame =>
        refine ⟨fun path caller => ?_, fun _ _ => rfl⟩
        have hmerge := readsOf_mergeRouteReadRows path caller carry.row (s.pendingRow bucket endMs)
        have hrow : readsOf (s.pendingRow bucket endMs).routes path caller = readsOf s.counts path caller := rfl
        have hc := hcarried path caller
        refine ⟨?_, ?_⟩
        · show totalOf s.readFile path caller + readsOf (mergeRouteReadRows carry.row _).routes path caller + 0 =
            totalOf s.readFile path caller + carriedOf s.readFile path caller + _
          omega
        · show emittedOf s.emitted path caller + readsOf (mergeRouteReadRows carry.row _).routes path caller + 0 =
            emittedOf s.emitted path caller + carriedOf s.readFile path caller + _
          omega
      next hother =>
        -- nothing was counted, against the sum above
        have hnone := hkeep carry hcarry hother
        refine absurd ?_ hreads
        have hall : ∀ e ∈ s.counts.entries, e.2 RouteReadCaller.console + e.2 .fleet = 0 := by
          rintro ⟨path, byCaller⟩ hmem
          have hget := Record.mem_entries_iff.mp hmem
          have h1 := hnone path .console
          have h2 := hnone path .fleet
          simp only [readsOf, hget, Option.getD_some] at h1 h2
          show byCaller .console + byCaller .fleet = 0
          omega
        apply List.sum_eq_zero
        intro n hn
        obtain ⟨e, hmem, rfl⟩ := List.mem_map.mp hn
        exact hall e hmem
    next hcarry =>
      have hcarried : ∀ path caller, carriedOf s.readFile path caller = 0 := by
        intro path caller
        simp [carriedOf, hcarry]
      refine ⟨fun path caller => ?_, fun _ _ => rfl⟩
      have hc := hcarried path caller
      refine ⟨?_, ?_⟩
      · show totalOf s.readFile path caller + readsOf s.counts path caller + 0 =
          totalOf s.readFile path caller + carriedOf s.readFile path caller + readsOf s.counts path caller
        omega
      · show emittedOf s.emitted path caller + readsOf s.counts path caller + 0 =
          emittedOf s.emitted path caller + carriedOf s.readFile path caller + readsOf s.counts path caller
        omega

/-! ### Runs -/

theorem Balanced.trans {u : Rollup} (h : Balanced s t) (h' : Balanced t u) : Balanced s u := fun path caller =>
  ⟨(h' path caller).1.trans (h path caller).1, (h' path caller).2.trans (h path caller).2⟩

/-- While there is no state file, nothing was folded. -/
def Loaded (s : Rollup) : Prop := s.file = none → s.state = emptyState

theorem flush_active (s : Rollup) (bucket endMs : ℤ) : (s.flush bucket endMs).active = s.active := by
  simp only [flush]
  split
  · rfl
  · split
    · split <;> rfl
    · rfl

theorem flush_loaded (s : Rollup) (bucket endMs : ℤ) : Loaded (s.flush bucket endMs) := by
  have hclose : ∀ (s : Rollup) next row last, Loaded (s.closeHour next row last) := by
    intro s next row last hfile
    cases hfile
  simp only [flush]
  split
  · exact hclose _ _ _ _
  · split
    · split
      · exact hclose _ _ _ _
      · exact hclose _ _ _ _
    · exact hclose _ _ _ _

/-- What `rollTo` leaves, besides the balance. -/
theorem rollTo_spec (s : Rollup) (nowMs : ℤ) (hloaded : Loaded s) :
    Loaded (s.rollTo nowMs) ∧ (s.rollTo nowMs).active = s.active ∧ ∃ bucket, (s.rollTo nowMs).bucket = some bucket := by
  simp only [rollTo]
  split
  · exact ⟨hloaded, rfl, _, rfl⟩
  next bucket hbucket =>
    split
    · exact ⟨flush_loaded s bucket _, flush_active s bucket _, _, rfl⟩
    · exact ⟨hloaded, rfl, bucket, hbucket⟩

theorem handOff_loaded (s : Rollup) (endMs : ℤ) (h : Loaded s) : Loaded (s.handOff endMs) := by
  have hpersist : ∀ (s : Rollup) next, Loaded (s.persist next) := by
    intro s next hfile
    cases hfile
  simp only [handOff]
  split
  · exact h
  · split
    · exact h
    · split
      · split
        · exact hpersist _ _
        · exact hpersist _ _
      · exact hpersist _ _

/-- A stop that does not replace a carry keeps every read. -/
theorem stop_balanced {tickMs endMs : ℤ} (hbucket : ∃ bucket, s.bucket = some bucket)
    (hkeep : ¬ s.ReplacesCarry (.stop tickMs endMs)) :
    Balanced s (s.stop tickMs endMs) ∧ ∀ path caller, readsOf (s.stop tickMs endMs).counts path caller = 0 := by
  obtain ⟨bucket, hbucket⟩ := hbucket
  have hhand : Balanced (s.rollTo tickMs) ((s.rollTo tickMs).handOff endMs) ∧
      ∀ path caller, readsOf ((s.rollTo tickMs).handOff endMs).counts path caller = 0 := by
    by_cases hroll : hourOf tickMs > bucket
    · have heq : s.rollTo tickMs =
          { s.flush bucket (bucket + hourMs) with bucket := some (hourOf tickMs), windowStart := hourOf tickMs } := by
        simp [rollTo, hbucket, hroll]
      have hzero := (flush_balanced s bucket (bucket + hourMs)).2
      rw [heq]
      exact handOff_balanced endMs rfl fun _ _ _ => hzero
    · have heq : s.rollTo tickMs = s := by simp [rollTo, hbucket, hroll]
      rw [heq]
      apply handOff_balanced endMs hbucket
      intro carry hcarry hother path caller
      by_contra hne
      exact hkeep ⟨bucket, carry, path, caller, hbucket, by omega, hcarry, hother, by omega⟩
  exact ⟨(rollTo_balanced s tickMs).trans hhand.1, hhand.2⟩

/-- Every read counted is in the totals, in the carry or still in memory, and the same for the emitted rows. -/
structure Inv (es : List RollupEvent) (s : Rollup) : Prop where
  loaded : Loaded s
  bucket : s.active = true → ∃ bucket, s.bucket = some bucket
  idle : s.active = false → ∀ path caller, readsOf s.counts path caller = 0
  held : ∀ path caller, s.held path caller + readsOf s.counts path caller = countedOf es path caller
  sent : ∀ path caller, s.sent path caller + readsOf s.counts path caller = countedOf es path caller

theorem inv_fresh : Inv [] fresh where
  loaded := fun _ => rfl
  bucket := by simp [fresh]
  idle := fun _ _ _ => rfl
  held := fun _ _ => rfl
  sent := fun _ _ => rfl

/-- A balanced step of an event that counts nothing. -/
theorem Inv.balanced {es : List RollupEvent} {e : RollupEvent} (h : Inv es s) (hb : Balanced s t)
    (hloaded : Loaded t) (hbucket : t.active = true → ∃ bucket, t.bucket = some bucket)
    (hidle : t.active = false → ∀ path caller, readsOf t.counts path caller = 0)
    (hcount : ∀ path caller, countedOf (es ++ [e]) path caller = countedOf es path caller) : Inv (es ++ [e]) t where
  loaded := hloaded
  bucket := hbucket
  idle := hidle
  held := fun path caller => by rw [hcount, ← h.held path caller]; exact (hb path caller).1
  sent := fun path caller => by rw [hcount, ← h.sent path caller]; exact (hb path caller).2

theorem readsOf_increment (counts : Record Text Counts) (path path' : Text) (caller caller' : RouteReadCaller) :
    let byCaller := (counts.get? path).getD fun _ => 0
    readsOf (counts.set path (Function.update byCaller caller (byCaller caller + 1))) path' caller' =
      readsOf counts path' caller' + if path = path' ∧ caller = caller' then 1 else 0 := by
  intro byCaller
  unfold readsOf
  by_cases hp : path' = path
  · subst hp
    rw [Record.get?_set_self, Option.getD_some]
    by_cases hc : caller' = caller
    · subst hc
      simp [byCaller]
    · simp [Function.update_of_ne hc, byCaller, Ne.symm hc]
  · rw [Record.get?_set_of_ne _ _ hp]
    simp [Ne.symm hp]

theorem inv_step {es : List RollupEvent} {e : RollupEvent} (h : Inv es s)
    (hs : Guarded Step (fun s e => ¬ s.ReplacesCarry e) s e t) : Inv (es ++ [e]) t := by
  obtain ⟨hstep, hkeep⟩ := hs
  unfold Step at hstep
  cases e with
  | start nowMs =>
      simp only [next] at hstep
      split at hstep
      · cases hstep
      next hactive =>
        obtain rfl := Option.some.inj hstep
        have hidle := h.idle (by simpa using hactive)
        set r : Rollup :=
          { s with active := true, state := s.file.getD emptyState, bucket := none, counts := ∅, last := ∅ } with hr
        have hread : r.readFile = s.readFile := by
          unfold readFile
          cases hfile : s.file with
          | none => simp [hr, hfile, h.loaded hfile]
          | some st => simp [hr, hfile]
        have hb : Balanced s r := by
          intro path caller
          have hzero := hidle path caller
          have hzero' : readsOf r.counts path caller = 0 := rfl
          refine ⟨?_, ?_⟩
          · unfold held
            rw [hread, hzero, hzero']
          · unfold sent
            rw [hread, hzero, hzero']
        obtain ⟨hloaded, hact, hbucket⟩ := rollTo_spec r nowMs (fun hfile => by
          have : s.file = none := hfile
          simp [hr, this])
        refine h.balanced (hb.trans (rollTo_balanced r nowMs)) hloaded (fun _ => hbucket) ?_ ?_
        · intro hoff
          exact absurd (hact.symm.trans hoff) (by simp [hr])
        · simp [countedOf]
  | count path caller nowMs =>
      simp only [next] at hstep
      split at hstep
      next hactive =>
        obtain rfl := Option.some.inj hstep
        obtain ⟨hloaded, hact, hbucket⟩ := rollTo_spec s nowMs h.loaded
        have hb := rollTo_balanced s nowMs
        simp only [count, hactive, if_true]
        have hcount : ∀ p c, countedOf (es ++ [.count path caller nowMs]) p c =
            countedOf es p c + if path = p ∧ caller = c then 1 else 0 := by
          intro p c
          simp [countedOf]
        refine ⟨hloaded, fun _ => hbucket, ?_, fun p c => ?_, fun p c => ?_⟩
        · intro hoff
          exact absurd ((hact.trans hactive).symm.trans hoff) (by decide)
        · have hinc := readsOf_increment (s.rollTo nowMs).counts path p caller c
          have hbal := (hb p c).1
          have hheld := h.held p c
          rw [hcount]
          show (s.rollTo nowMs).held p c + readsOf _ p c = _
          rw [hinc]
          omega
        · have hinc := readsOf_increment (s.rollTo nowMs).counts path p caller c
          have hbal := (hb p c).2
          have hsent := h.sent p c
          rw [hcount]
          show (s.rollTo nowMs).sent p c + readsOf _ p c = _
          rw [hinc]
          omega
      · cases hstep
  | tick nowMs =>
      simp only [next] at hstep
      split at hstep
      next hactive =>
        obtain rfl := Option.some.inj hstep
        obtain ⟨hloaded, hact, hbucket⟩ := rollTo_spec s nowMs h.loaded
        refine h.balanced (rollTo_balanced s nowMs) hloaded (fun _ => hbucket) ?_ (by simp [countedOf])
        intro hoff
        exact absurd ((hact.trans hactive).symm.trans hoff) (by decide)
      · cases hstep
  | stop tickMs endMs =>
      simp only [next] at hstep
      split at hstep
      next hactive =>
        obtain rfl := Option.some.inj hstep
        obtain ⟨hb, hzero⟩ := stop_balanced (h.bucket hactive) hkeep
        have hloaded := handOff_loaded _ endMs (rollTo_spec s tickMs h.loaded).1
        refine h.balanced hb hloaded ?_ (fun _ => hzero) (by simp [countedOf])
        intro hon
        cases hon
      · cases hstep

end Balance

end Rollup

/-- While no generation that stops replaces the carry of another hour, after every stop the totals and the
carry together have each read once, and so have the emitted rows and the carry. -/
theorem route_reads_conserved {es : List RollupEvent} {s : Rollup}
    (hr : Run (Guarded Rollup.Step fun s e => ¬ s.ReplacesCarry e) Rollup.fresh es s) (hstopped : s.active = false)
    (path : Text) (caller : RouteReadCaller) :
    totalOf s.readFile path caller + carriedOf s.readFile path caller = countedOf es path caller ∧
    emittedOf s.emitted path caller + carriedOf s.readFile path caller = countedOf es path caller := by
  have hinv : Rollup.Inv es s :=
    hr.invariant_trace (I := Rollup.Inv) (fun _ _ _ _ h hs => Rollup.inv_step h hs) Rollup.inv_fresh
  have hzero := hinv.idle hstopped path caller
  have hheld := hinv.held path caller
  have hsent := hinv.sent path caller
  unfold Rollup.held at hheld
  unfold Rollup.sent at hsent
  omega

theorem not_replacesCarry_of_no_carry {s : Rollup} (h : s.readFile.carry = none) (e : RollupEvent) :
    ¬ s.ReplacesCarry e := by
  cases e with
  | stop tickMs endMs =>
      rintro ⟨bucket, carry, path, caller, -, -, hcarry, -⟩
      rw [h] at hcarry
      cases hcarry
  | _ => exact id

/-- One read is handed from a generation to the next, which closes the hour and stops. -/
theorem carried_read_folded : ∃ s,
    Run (Guarded Rollup.Step fun s e => ¬ s.ReplacesCarry e) Rollup.fresh
      [.start 0, .count ['/'] .console 1, .stop 2 2, .start 3, .tick 3600000, .stop 3600001 3600001] s ∧
    totalOf s.readFile ['/'] .console + carriedOf s.readFile ['/'] .console = 1 ∧
    emittedOf s.emitted ['/'] .console + carriedOf s.readFile ['/'] .console = 1 := by
  have hrun : ∃ s, Run (Guarded Rollup.Step fun s e => ¬ s.ReplacesCarry e) Rollup.fresh
      [.start 0, .count ['/'] .console 1, .stop 2 2, .start 3, .tick 3600000, .stop 3600001 3600001] s ∧
      s.active = false := by
    refine ⟨_, .cons ⟨rfl, id⟩ (.cons ⟨rfl, id⟩ (.cons ⟨rfl, not_replacesCarry_of_no_carry rfl _⟩
      (.cons ⟨rfl, id⟩ (.cons ⟨rfl, id⟩ (.single ⟨rfl, not_replacesCarry_of_no_carry rfl _⟩))))), rfl⟩
  obtain ⟨s, hr, hstopped⟩ := hrun
  exact ⟨s, hr, route_reads_conserved hr hstopped ['/'] .console⟩

/-- The generation of the second hour stops inside it and replaces the carry of the first: the read of the
first hour is in neither. -/
theorem carry_replaced : ∃ s,
    Run Rollup.Step Rollup.fresh
      [.start 0, .count ['/'] .console 1, .stop 2 2,
        .start 3600000, .count ['/'] .console 3600001, .stop 3600002 3600002] s ∧
    s.active = false ∧
    totalOf s.readFile ['/'] .console + carriedOf s.readFile ['/'] .console = 1 ∧
    emittedOf s.emitted ['/'] .console + carriedOf s.readFile ['/'] .console = 1 ∧
    countedOf [.start 0, .count ['/'] .console 1, .stop 2 2,
      .start 3600000, .count ['/'] .console 3600001, .stop 3600002 3600002] ['/'] .console = 2 :=
  ⟨_, .cons rfl (.cons rfl (.cons rfl (.cons rfl (.cons rfl (.single rfl))))), rfl, rfl, rfl, by decide⟩

end Remudero.Serve
