import Remudero.Cash.Allowance
import Remudero.Lib.Checks

/-! # The daily law of the cash allowance

How much can be granted for one UTC day?  The file records one day only, and in local mode a
reservation for an earlier day starts the file afresh for that day: what was already granted for
it is forgotten, and so is what was granted for the later day.  Fleet mode refuses such a request.
A deployment that names an inherited property is granted an amount that is not a number.

`allowance_kept` is the main result: in every run in which no reservation in local mode is for a
day before the file's and no deployment is such a name (`InOrder`), the total granted for each day
is at most the cap; a settled reservation stays as it is and an amount is released only by a
receipt with its identity.

The invariant behind the second part holds in every run: the newest reservation granted under the
file's day and an id of the file is the file's row (`Synced`).  For the first part the file's
committed total is the total of its day in the book (`Balanced`). -/

namespace Remudero.Cash

open Remudero.Lib

/-! ### Amounts -/

theorem Usd.ne_top_of_isFinite {a : Usd} (h : a.isFinite = true) : a ≠ ⊤ := by
  rintro rfl
  simp [Usd.isFinite] at h

theorem Usd.mathMin_le {a b : Usd} (ha : a ≠ ⊤) (hb : b ≠ ⊤) : Usd.mathMin a b ≤ b := by
  lift a to ℚ using ha
  lift b to ℚ using hb
  exact WithTop.coe_le_coe.mpr (min_le_right a b)

theorem sum_ne_top {ι : Type} {l : List ι} {f : ι → Usd} (h : ∀ x ∈ l, f x ≠ ⊤) :
    (l.map f).sum ≠ ⊤ := by
  induction l with
  | nil => simp
  | cons x l ih =>
      rw [List.map_cons, List.sum_cons, WithTop.add_ne_top]
      exact ⟨h x List.mem_cons_self, ih fun y hy => h y (List.mem_cons_of_mem x hy)⟩

/-! ### Rows and receipts -/

theorem validReservation_reserved {id : Text} {row : CashReservation}
    (h : validReservation id row = true) : row.reservedUsd ≠ ⊤ := by
  simp only [validReservation, Bool.and_eq_true] at h
  exact Usd.ne_top_of_isFinite h.1.1.1.1.2

theorem validReservation_committed {id : Text} {row : CashReservation}
    (h : validReservation id row = true) : row.committedUsd ≠ ⊤ := by
  have hres := validReservation_reserved h
  simp only [validReservation, Bool.and_eq_true] at h
  have hset := h.1.1.2
  unfold CashReservation.committedUsd
  cases hs : row.settledUsd with
  | none => exact hres
  | some a =>
      rw [hs] at hset
      simp only [Option.all_some, Bool.and_eq_true] at hset
      exact Usd.ne_top_of_isFinite hset.1.1

/-- A receipt changes only a row that is not settled, and settles it at its finite amount. -/
theorem recordCashAccounting_cases (row : CashReservation) (evidence : CashAccountingEvidence) :
    recordCashAccounting row evidence = row ∨
      (row.settledUsd = none ∧
        (recordCashAccounting row evidence).reservedUsd = row.reservedUsd ∧
        (recordCashAccounting row evidence).settledUsd =
          evidence.actualUsd.map (fun a => Usd.mathMin a row.reservedUsd) ∧
        ∀ a, evidence.actualUsd = some a → a ≠ ⊤) := by
  unfold recordCashAccounting
  split
  · exact .inl rfl
  · split
    · exact .inl rfl
    · next hopen =>
        split
        · exact .inl rfl
        · next hfin =>
            split
            · exact .inl rfl
            · refine .inr ⟨?_, rfl, rfl, ?_⟩
              · simp only [Bool.or_eq_true, not_or, Option.isSome_iff_ne_none, not_not] at hopen
                exact hopen.1
              · intro a ha
                rw [ha] at hfin
                have hfinite : a.isFinite = true := by
                  simp only [Option.any_some, Bool.or_eq_true, not_or] at hfin
                  simpa using hfin.1
                exact Usd.ne_top_of_isFinite hfinite

theorem recordCashAccounting_settled {row : CashReservation} {evidence : CashAccountingEvidence}
    (h : row.settledUsd ≠ none) : recordCashAccounting row evidence = row := by
  rcases recordCashAccounting_cases row evidence with heq | ⟨hnone, -⟩
  · exact heq
  · exact absurd hnone h

/-- A receipt never raises what a row counts for. -/
theorem recordCashAccounting_le {row : CashReservation} {evidence : CashAccountingEvidence}
    (h : row.reservedUsd ≠ ⊤) :
    (recordCashAccounting row evidence).committedUsd ≤ row.committedUsd := by
  rcases recordCashAccounting_cases row evidence with heq | ⟨hnone, hres, hset, hfin⟩
  · rw [heq]
  · unfold CashReservation.committedUsd
    rw [hset, hres, hnone]
    cases ha : evidence.actualUsd with
    | none => exact le_refl _
    | some a => exact Usd.mathMin_le (hfin a ha) h

/-! ### What a successful call checked -/

theorem require_eq_ok {ok : Bool} {err : AllowanceError} : require ok err = .ok () ↔ ok = true := by
  cases ok <;> simp [require]

/-- The state a call works on: that of the file, emptied when the file is of another day. -/
theorem parse_ok {file : Option Snapshot} {day : Text} {fleet preserve : Bool} {state : Allowance}
    (h : parseOpenWeightAllowance file day fleet preserve = .ok state) :
    (∀ e ∈ state.reservations.entries, validReservation e.1 e.2 = true) ∧
      ((file = none ∧ state = ⟨day, none, ∅⟩) ∨
        ∃ parsed, file = some (.json parsed) ∧
          (fleet = true → preserve = false → parsed.utcDay ≤ day) ∧
          state.utcDay = (if preserve then parsed.utcDay else day) ∧
          state.reservations =
            if preserve || parsed.utcDay == day then parsed.reservations else ∅) := by
  unfold parseOpenWeightAllowance at h
  split at h
  · split_ifs at h with hf
    cases h
    refine ⟨?_, .inl ⟨rfl, rfl⟩⟩
    intro e he
    cases he
  · cases h
  · next parsed =>
      simp only [bind_eq_ok_iff] at h
      obtain ⟨⟨⟩, -, ⟨⟩, -, ⟨⟩, hrows, ⟨⟩, hday, hstate⟩ := h
      simp only [forM_eq_ok_iff, require_eq_ok] at hrows hday
      cases hstate
      refine ⟨?_, .inr ⟨parsed, rfl, ?_, rfl, rfl⟩⟩
      · intro e he
        dsimp only at he
        split_ifs at he with hc
        · exact hrows e he
        · cases he
      · intro hf hp
        simpa [hf, hp] using hday

theorem sharedCashAllowancePath_ok {config : Config} {path : Option Text}
    (h : sharedCashAllowancePath config = .ok path) : path = config.fleetCashAllowancePath := by
  unfold sharedCashAllowancePath at h
  split at h
  · next hnone =>
      cases h
      exact hnone.symm
  · next p hsome =>
      split_ifs at h with hp
      cases h
      exact hsome.symm

theorem openWeightUtcDay_ok {atIso day : Text} (h : openWeightUtcDay atIso = .ok day) :
    day = atIso.take 10 := by
  simp only [openWeightUtcDay] at h
  split_ifs at h with hd
  cases h
  rfl

theorem configuredCashCap_le {config : Config} {squeezed : Bool} {cap : ℚ}
    (h : configuredCashCap config squeezed = .ok cap) : (cap : Usd) ≤ config.cap := by
  simp only [configuredCashCap, bind_eq_ok_iff] at h
  obtain ⟨eff, heff, hcap⟩ := h
  have hsome : eff = some (cap : Usd) := by
    split at hcap
    · split_ifs at hcap with hpos
      cases hcap
      rfl
    · cases hcap
  subst hsome
  unfold effectiveCashCapUsd at heff
  unfold Config.cap
  split at heff
  · cases heff
  · cases heff
    exact le_refl _
  · next normal squeezedCap _ =>
      simp only [bind_eq_ok_iff] at heff
      obtain ⟨⟨⟩, -, ⟨⟩, hle, heq⟩ := heff
      have hle : normal ≤ squeezedCap := by simpa [require_eq_ok] using hle
      have heq : (if squeezed then squeezedCap else normal) = (cap : Usd) :=
        Option.some.inj (Except.ok.inj heq)
      rw [← heq]
      split_ifs
      · exact le_refl _
      · exact hle

theorem openWeightReservationUsd_ne_top {deployment : Text} {bytes : ℕ} {extra : ℤ} {want : Usd}
    (hdep : deployment ∉ inheritedProperties)
    (h : openWeightReservationUsd deployment bytes extra = .ok want) : want ≠ ⊤ := by
  simp only [openWeightReservationUsd, bind_eq_ok_iff] at h
  obtain ⟨price, hprice, hwant⟩ := h
  cases price with
  | none =>
      exfalso
      unfold openWeightPriceFor at hprice
      split at hprice
      · cases hprice
      · simp [hdep] at hprice
  | some price =>
      dsimp only at hwant
      split at hwant
      · cases hwant
        exact WithTop.coe_ne_top
      · cases hwant
        exact WithTop.coe_ne_top

theorem le_of_not_exceeded {limit : AllowanceLimit} {want : Usd} (hc : limit.committedUsd ≠ ⊤)
    (hw : want ≠ ⊤) (h : limit.exceeded want = false) :
    limit.committedUsd + want ≤ (limit.capUsd : Usd) := by
  obtain ⟨committed, cap, name⟩ := limit
  dsimp only at hc h ⊢
  lift committed to ℚ using hc
  lift want to ℚ using hw
  have hle : ¬ cap < committed + want := by simpa [AllowanceLimit.exceeded, ← WithTop.coe_add] using h
  exact_mod_cast not_lt.mp hle

theorem cashAllowanceLimits_fleet (state : Allowance) (cap : ℚ) (deployment : Text)
    (squeezed : Bool) :
    ⟨openWeightCommittedUsd state.reservations.entries, (state.fleetCapUsd.map (min cap)).getD cap,
      .fleet⟩ ∈ cashAllowanceLimits state cap deployment squeezed := by
  unfold cashAllowanceLimits
  dsimp only
  split_ifs <;> simp

/-- A granted reservation: a row under a new id, within the configured cap of the file's day. -/
theorem reserve_ok {config : Config} {file : Option Snapshot} {input : ReserveInput}
    {pilot : PilotScope} {state : Allowance} {want : Usd}
    (h : reserveOpenWeightBudget config file input pilot = .ok (state, want)) :
    ∃ before, parseOpenWeightAllowance file (input.atIso.take 10)
        config.fleetCashAllowancePath.isSome false = .ok before ∧
      before.reservations.get? input.requestId = none ∧
      state = before.setRow input.requestId (heldReservation input want) ∧
      (input.deployment ∉ inheritedProperties → want ≠ ⊤ ∧
        openWeightCommittedUsd before.reservations.entries + want ≤ config.cap) := by
  simp only [reserveOpenWeightBudget, bind_eq_ok_iff] at h
  obtain ⟨⟨⟩, -, path, hpath, ⟨⟩, -, cap, hcap, day, hday, want', hwant, before, hparse, ⟨⟩, hnew,
    ⟨⟩, hlimits, ⟨⟩, -, heq⟩ := h
  obtain ⟨hstate, rfl⟩ := Prod.mk.inj (Except.ok.inj heq)
  obtain rfl := sharedCashAllowancePath_ok hpath
  obtain rfl := openWeightUtcDay_ok hday
  simp only [forM_eq_ok_iff, require_eq_ok, Option.isNone_iff_eq_none] at hnew hlimits
  refine ⟨before, hparse, hnew, hstate.symm, ?_⟩
  intro hdep
  have hw := openWeightReservationUsd_ne_top hdep hwant
  have hrows := (parse_ok hparse).1
  have hcommitted : openWeightCommittedUsd before.reservations.entries ≠ ⊤ :=
    sum_ne_top fun e he => validReservation_committed (hrows e he)
  have hlimit := hlimits _ (cashAllowanceLimits_fleet before cap input.deployment input.squeezed)
  have hle := le_of_not_exceeded hcommitted hw (by simpa using hlimit)
  refine ⟨hw, hle.trans (le_trans ?_ (configuredCashCap_le hcap))⟩
  rw [WithTop.coe_le_coe]
  cases before.fleetCapUsd with
  | none => exact le_refl _
  | some fleetCap => exact min_le_left cap fleetCap

/-- A receipt matches when it carries the identity itself, and that names a cash request. -/
theorem cashIdentityMatches_iff {a : CashRequestIdentity} {b : Option CashRequestIdentity} :
    cashIdentityMatches a b = true ↔ b = some a ∧ validCashIdentity a = true := by
  cases b with
  | none => simp [cashIdentityMatches]
  | some b =>
      obtain ⟨requestId, attemptId, provider, deployment, endpoint⟩ := a
      obtain ⟨requestId', attemptId', provider', deployment', endpoint'⟩ := b
      simp only [cashIdentityMatches, Bool.and_eq_true, beq_iff_eq, Option.some.injEq, CashRequestIdentity.mk.injEq]
      constructor
      · rintro ⟨⟨⟨⟨⟨hvalid, rfl⟩, rfl⟩, rfl⟩, rfl⟩, rfl⟩
        exact ⟨⟨rfl, rfl, rfl, rfl, rfl⟩, hvalid⟩
      · rintro ⟨⟨rfl, rfl, rfl, rfl, rfl⟩, hvalid⟩
        exact ⟨⟨⟨⟨⟨hvalid, rfl⟩, rfl⟩, rfl⟩, rfl⟩, rfl⟩

/-- A settlement: a row of the file's day, whose identity the receipt carries, is recorded. -/
theorem settle_ok {config : Config} {file : Option Snapshot} {input : SettleInput}
    {pilot : PilotScope} {state : Allowance} {recorded : Option CashReservation}
    (h : settleOpenWeightBudget config file input pilot = .ok (state, recorded)) :
    ∃ before, parseOpenWeightAllowance file (input.atIso.take 10)
        config.fleetCashAllowancePath.isSome true = .ok before ∧
      ((recorded = none ∧ state = before) ∨
        ∃ row identity, before.reservations.get? input.requestId = some row ∧
          before.utcDay = input.atIso.take 10 ∧ row.identity = some identity ∧
          cashIdentityMatches identity input.identity = true ∧
          recorded = some (recordCashAccounting row input.toCashAccountingEvidence) ∧
          state = before.setRow input.requestId
            (recordCashAccounting row input.toCashAccountingEvidence)) := by
  simp only [settleOpenWeightBudget, bind_eq_ok_iff] at h
  obtain ⟨path, hpath, ⟨⟩, -, day, hday, before, hparse, hres⟩ := h
  obtain rfl := sharedCashAllowancePath_ok hpath
  obtain rfl := openWeightUtcDay_ok hday
  refine ⟨before, hparse, ?_⟩
  cases hrow : settledRow before (input.atIso.take 10) input with
  | none =>
      rw [hrow] at hres
      obtain ⟨hstate, hrec⟩ := Prod.mk.inj (Except.ok.inj hres)
      exact .inl ⟨hrec.symm, hstate.symm⟩
  | some new =>
      rw [hrow] at hres
      obtain ⟨hstate, hrec⟩ := Prod.mk.inj (Except.ok.inj hres)
      simp only [settledRow, Option.bind_eq_bind, Option.bind_eq_some_iff] at hrow
      obtain ⟨row, hget, identity, hid, hnew⟩ := hrow
      split_ifs at hnew with hmatch
      obtain rfl := Option.some.inj hnew
      exact .inr ⟨row, identity, hget, hmatch.1, hid, hmatch.2, hrec.symm, hstate.symm⟩

namespace AllowanceState

/-! ### One call -/

/-- What a call can do: nothing, grant a reservation, rewrite the file, or record a receipt. -/
inductive Moves (config : Config) (s : AllowanceState) : Call → AllowanceState → Prop
  | refused (call : Call) : Moves config s call s
  | granted {input : ReserveInput} {pilot : PilotScope} {before : Allowance} {want : Usd}
      (hparse : parseOpenWeightAllowance s.file (input.atIso.take 10)
        config.fleetCashAllowancePath.isSome false = .ok before)
      (hnew : before.reservations.get? input.requestId = none)
      (hcap : input.deployment ∉ inheritedProperties →
        openWeightCommittedUsd before.reservations.entries + want ≤ config.cap) :
      Moves config s (.reserve input pilot)
        { file := some (.json (before.setRow input.requestId (heldReservation input want)))
          book := ((before.utcDay, input.requestId), heldReservation input want) :: s.book }
  | rewritten {input : SettleInput} {pilot : PilotScope} {before : Allowance}
      (hparse : parseOpenWeightAllowance s.file (input.atIso.take 10)
        config.fleetCashAllowancePath.isSome true = .ok before) :
      Moves config s (.settle input pilot) { s with file := some (.json before) }
  | recorded {input : SettleInput} {pilot : PilotScope} {before : Allowance}
      {row : CashReservation} {identity : CashRequestIdentity}
      (hparse : parseOpenWeightAllowance s.file (input.atIso.take 10)
        config.fleetCashAllowancePath.isSome true = .ok before)
      (hrow : before.reservations.get? input.requestId = some row)
      (hday : before.utcDay = input.atIso.take 10) (hid : row.identity = some identity)
      (hmatch : cashIdentityMatches identity input.identity = true) :
      Moves config s (.settle input pilot)
        { file := some (.json (before.setRow input.requestId
            (recordCashAccounting row input.toCashAccountingEvidence)))
          book := assign (before.utcDay, input.requestId)
            (recordCashAccounting row input.toCashAccountingEvidence) s.book }

theorem step_moves {config : Config} {s t : AllowanceState} {call : Call}
    (h : Step config s call t) : Moves config s call t := by
  obtain rfl : t = s.next config call := h
  cases call with
  | reserve input pilot =>
      cases hres : reserveOpenWeightBudget config s.file input pilot with
      | error err =>
          simp only [next, hres]
          exact .refused _
      | ok result =>
          obtain ⟨state, want⟩ := result
          obtain ⟨before, hparse, hnew, rfl, hcap⟩ := reserve_ok hres
          simp only [next, hres]
          exact .granted hparse hnew fun hdep => (hcap hdep).2
  | settle input pilot =>
      cases hres : settleOpenWeightBudget config s.file input pilot with
      | error err =>
          simp only [next, hres]
          exact .refused _
      | ok result =>
          obtain ⟨state, recorded⟩ := result
          obtain ⟨before, hparse, ⟨rfl, rfl⟩ | ⟨row, identity, hrow, hday, hid, hmatch, rfl, rfl⟩⟩ :=
            settle_ok hres
          · simp only [next, hres]
            exact .rewritten hparse
          · simp only [next, hres]
            exact .recorded hparse hrow hday hid hmatch

/-! ### The file and the book -/

/-- The newest reservation granted under the file's day and an id of the file is its row. -/
def Synced (s : AllowanceState) : Prop :=
  ∀ f, s.file = some (.json f) → ∀ id row, f.reservations.get? id = some row →
    entryOf (f.utcDay, id) s.book = some row

theorem synced_start (file : Option Snapshot) : (start file).Synced := by
  intro f hf id row hrow
  obtain rfl : file = some (.json f) := hf
  show entryOf (f.utcDay, id) (f.reservations.entries.map fun e => ((f.utcDay, e.1), e.2)) = some row
  rw [← hrow, Record.get?]
  induction f.reservations.entries with
  | nil => rfl
  | cons e l ih => simp only [List.map_cons, entryOf, Prod.mk.injEq, true_and, ih]

/-- The rows a call works on are rows of the book. -/
theorem Synced.before {s : AllowanceState} (h : s.Synced) {day : Text} {fleet preserve : Bool}
    {before : Allowance} (hparse : parseOpenWeightAllowance s.file day fleet preserve = .ok before)
    {id : Text} {row : CashReservation} (hrow : before.reservations.get? id = some row) :
    entryOf (before.utcDay, id) s.book = some row := by
  obtain ⟨-, ⟨-, rfl⟩ | ⟨parsed, hfile, -, hday, hres⟩⟩ := parse_ok hparse
  · cases hrow
  · rw [hres] at hrow
    split_ifs at hrow with hkeep
    · have hsame : before.utcDay = parsed.utcDay := by
        rw [hday]
        cases preserve with
        | true => rfl
        | false => simpa using Eq.symm (by simpa using hkeep)
      rw [hsame]
      exact h parsed hfile id row hrow
    · cases hrow

/-- Writing a row keeps the file and the book in step when the book has the row as its newest
entry and the other entries of the day are as before. -/
theorem Synced.setRow {s : AllowanceState} (h : s.Synced) {day : Text} {fleet preserve : Bool}
    {before : Allowance} (hparse : parseOpenWeightAllowance s.file day fleet preserve = .ok before)
    {requestId : Text} {row : CashReservation} {book : List ((Text × Text) × CashReservation)}
    (hself : entryOf (before.utcDay, requestId) book = some row)
    (hother : ∀ id, id ≠ requestId →
      entryOf (before.utcDay, id) book = entryOf (before.utcDay, id) s.book) :
    (AllowanceState.mk (some (.json (before.setRow requestId row))) book).Synced := by
  intro f hf id row' hrow
  obtain rfl : before.setRow requestId row = f := by
    injection hf with hf
    injection hf
  by_cases hid : id = requestId
  · subst hid
    have hget := before.reservations.get?_set_self id row
    obtain rfl := Option.some.inj (hget.symm.trans hrow)
    exact hself
  · have hget := before.reservations.get?_set_of_ne row hid
    exact (hother id hid).trans (h.before hparse (hget.symm.trans hrow))

theorem synced_step {config : Config} {s t : AllowanceState} {call : Call} (h : s.Synced)
    (hstep : Step config s call t) : t.Synced := by
  cases step_moves hstep with
  | refused => exact h
  | @granted input pilot before want hparse hnew hcap =>
      refine h.setRow hparse (entryOf_cons_self _ _ _) ?_
      intro id hid
      have hkey : (before.utcDay, input.requestId) ≠ (before.utcDay, id) := by simp [Ne.symm hid]
      exact entryOf_cons_of_ne _ hkey
  | @rewritten input pilot before hparse =>
      intro f hf id row hrow
      obtain rfl : before = f := by
        injection hf with hf
        injection hf
      exact h.before hparse hrow
  | @recorded input pilot before old identity hparse hold hday hident hmatch =>
      refine h.setRow hparse (entryOf_assign_self _ _ _) ?_
      intro id hid
      have hkey : (before.utcDay, id) ≠ (before.utcDay, input.requestId) := by simp [hid]
      exact entryOf_assign_of_ne _ _ hkey

/-! ### What a call does to a granted reservation -/

/-- The reservation `b` after the call is `a`, or `a` was not settled and the call was a receipt for
it with its identity, which names a cash request. -/
def Kept (call : Call) (a b : (Text × Text) × CashReservation) : Prop :=
  b = a ∨
    (b.1 = a.1 ∧ a.2.settledUsd = none ∧
      ∃ input pilot identity, call = .settle input pilot ∧
        a.1 = (input.atIso.take 10, input.requestId) ∧ a.2.identity = some identity ∧
        input.identity = some identity ∧ validCashIdentity identity = true ∧
        b.2 = recordCashAccounting a.2 input.toCashAccountingEvidence)

/-- Every reservation granted before the call is kept, and at most one is new. -/
def BookKept (call : Call) (s t : AllowanceState) : Prop :=
  ∃ granted kept, t.book = granted ++ kept ∧ granted.length ≤ 1 ∧
    List.Forall₂ (Kept call) s.book kept

theorem bookKept_step {config : Config} {s t : AllowanceState} {call : Call} (h : s.Synced)
    (hstep : Step config s call t) : BookKept call s t := by
  have hsame : List.Forall₂ (Kept call) s.book s.book := List.forall₂_same.mpr fun _ _ => .inl rfl
  cases step_moves hstep with
  | refused => exact ⟨[], s.book, rfl, Nat.zero_le _, hsame⟩
  | granted hparse hnew hcap => exact ⟨[_], s.book, rfl, Nat.le_refl _, hsame⟩
  | rewritten hparse => exact ⟨[], s.book, rfl, Nat.zero_le _, hsame⟩
  | @recorded input pilot before row identity hparse hrow hday hident hmatch =>
      refine ⟨[], _, rfl, Nat.zero_le _, ?_⟩
      refine (forall₂_assign _ (h.before hparse hrow)).imp ?_
      rintro a b (rfl | ⟨rfl, rfl⟩)
      · exact .inl rfl
      · by_cases hset : row.settledUsd = none
        · obtain ⟨hsame, hvalid⟩ := cashIdentityMatches_iff.mp hmatch
          refine .inr ⟨rfl, hset, input, pilot, identity, rfl, ?_, hident, hsame, hvalid, rfl⟩
          rw [hday]
        · rw [recordCashAccounting_settled hset]
          exact .inl rfl

/-! ### The total of a day -/

theorem granted_eq_zero {s : AllowanceState} {day : Text} (h : ∀ g ∈ s.book, g.1.1 ≠ day) :
    s.granted day = 0 := by
  unfold granted
  refine List.sum_eq_zero ?_
  intro x hx
  obtain ⟨g, hg, rfl⟩ := List.mem_map.mp hx
  rw [if_neg (h g hg)]

/-- The file accounts for its day, which is the latest one with a reservation. -/
structure Balanced (config : Config) (s : AllowanceState) : Prop where
  synced : s.Synced
  fresh : (∀ f, s.file ≠ some (.json f)) → s.book = []
  total : ∀ f, s.file = some (.json f) →
    s.granted f.utcDay = openWeightCommittedUsd f.reservations.entries
  days : ∀ f, s.file = some (.json f) → ∀ g ∈ s.book, g.1.1 ≤ f.utcDay
  empty : ∀ f, s.file = some (.json f) → f.reservations.entries = [] → s.book = []
  within : ∀ day, s.granted day ≤ config.cap

theorem balanced_start {config : Config} {file : Option Snapshot}
    (h : ∀ day, (start file).granted day ≤ config.cap) : Balanced config (start file) where
  synced := synced_start file
  fresh := by
    intro hne
    cases file with
    | none => rfl
    | some snapshot =>
        cases snapshot with
        | unreadable => rfl
        | json f => exact absurd rfl (hne f)
  total := by
    intro f hf
    obtain rfl : file = some (.json f) := hf
    simp only [granted, start, openWeightCommittedUsd, List.map_map]
    congr 1
    refine List.map_congr_left ?_
    intro e he
    simp
  days := by
    intro f hf g hg
    obtain rfl : file = some (.json f) := hf
    obtain ⟨e, -, rfl⟩ := List.mem_map.mp hg
    exact le_refl _
  empty := by
    intro f hf hnil
    obtain rfl : file = some (.json f) := hf
    simp [start, hnil]
  within := h

/-- The rows a reservation is checked against are all that was granted for its day. -/
theorem Balanced.before {config : Config} {s : AllowanceState} (h : Balanced config s) {day : Text}
    {fleet : Bool} {before : Allowance}
    (hparse : parseOpenWeightAllowance s.file day fleet false = .ok before)
    (horder : fleet = false → ∀ f, s.file = some (.json f) → f.reservations.entries ≠ [] →
      f.utcDay ≤ day) :
    before.utcDay = day ∧ s.granted day = openWeightCommittedUsd before.reservations.entries ∧
      ∀ g ∈ s.book, g.1.1 ≤ day := by
  have hempty : s.book = [] → s.granted day = 0 ∧ ∀ g ∈ s.book, g.1.1 ≤ day := by
    intro hnil
    simp [granted, hnil]
  obtain ⟨-, ⟨hfile, rfl⟩ | ⟨parsed, hfile, hfleet, hday, hres⟩⟩ := parse_ok hparse
  · have hnil := h.fresh (by simp [hfile])
    exact ⟨rfl, hempty hnil⟩
  · refine ⟨by simpa using hday, ?_⟩
    rw [hres]
    by_cases hrows : parsed.reservations.entries = []
    · have hzero := hempty (h.empty parsed hfile hrows)
      refine ⟨?_, hzero.2⟩
      rw [hzero.1]
      split_ifs
      · simp [openWeightCommittedUsd, hrows]
      · rfl
    · have hle : parsed.utcDay ≤ day := by
        cases fleet with
        | true => exact hfleet rfl rfl
        | false => exact horder rfl parsed hfile hrows
      have hdays : ∀ g ∈ s.book, g.1.1 ≤ day := fun g hg => (h.days parsed hfile g hg).trans hle
      refine ⟨?_, hdays⟩
      by_cases hsame : parsed.utcDay = day
      · rw [← hsame, h.total parsed hfile]
        simp
      · -- the file is of an earlier day, so nothing was granted for this one yet
        have hlt := lt_of_le_of_ne hle hsame
        rw [granted_eq_zero fun g hg => ((h.days parsed hfile g hg).trans_lt hlt).ne]
        simp [hsame, openWeightCommittedUsd, EmptyCollection.emptyCollection]

/-- A reservation in local mode is not for a day before the file's, and its deployment is not the
name of an inherited property. -/
def InOrder (config : Config) (s : AllowanceState) : Call → Prop
  | .reserve input _ =>
      input.deployment ∉ inheritedProperties ∧
        (config.fleetCashAllowancePath = none → ∀ f, s.file = some (.json f) →
          f.reservations.entries ≠ [] → f.utcDay ≤ input.atIso.take 10)
  | .settle _ _ => True

theorem heldReservation_committed (input : ReserveInput) (want : Usd) :
    (heldReservation input want).committedUsd = want := by
  unfold heldReservation CashReservation.committedUsd
  cases input.identity <;> rfl

theorem balanced_granted {config : Config} {s : AllowanceState} (h : Balanced config s)
    {input : ReserveInput} {pilot : PilotScope} {before : Allowance} {want : Usd}
    (hparse : parseOpenWeightAllowance s.file (input.atIso.take 10)
      config.fleetCashAllowancePath.isSome false = .ok before)
    (hnew : before.reservations.get? input.requestId = none)
    (hcap : openWeightCommittedUsd before.reservations.entries + want ≤ config.cap)
    (horder : InOrder config s (.reserve input pilot))
    (hsynced : (AllowanceState.mk
      (some (.json (before.setRow input.requestId (heldReservation input want))))
      (((before.utcDay, input.requestId), heldReservation input want) :: s.book)).Synced) :
    Balanced config
      { file := some (.json (before.setRow input.requestId (heldReservation input want)))
        book := ((before.utcDay, input.requestId), heldReservation input want) :: s.book } := by
  obtain ⟨hday, htotal, hdays⟩ := h.before hparse
    fun hfleet => horder.2 (by simpa using hfleet)
  have hgranted : ∀ day, (AllowanceState.mk
      (some (.json (before.setRow input.requestId (heldReservation input want))))
      (((before.utcDay, input.requestId), heldReservation input want) :: s.book)).granted day =
        (if before.utcDay = day then want else 0) + s.granted day := by
    intro day
    simp only [granted, List.map_cons, List.sum_cons, heldReservation_committed]
  have hsum : openWeightCommittedUsd
      (before.setRow input.requestId (heldReservation input want)).reservations.entries =
        openWeightCommittedUsd before.reservations.entries + want := by
    have hfresh := sum_assign_fresh (fun e : Text × CashReservation => e.2.committedUsd)
      (heldReservation input want) hnew
    rw [heldReservation_committed] at hfresh
    exact hfresh
  refine ⟨hsynced, fun hne => absurd rfl (hne _), ?_, ?_, ?_, ?_⟩
  · rintro f hf
    cases hf
    show granted _ before.utcDay = _
    rw [hgranted, if_pos rfl, hsum, hday, htotal, add_comm]
  · rintro f hf g hg
    cases hf
    show g.1.1 ≤ before.utcDay
    rcases List.mem_cons.mp hg with rfl | hg
    · exact le_refl _
    · rw [hday]
      exact hdays g hg
  · rintro f hf hnil
    cases hf
    exact absurd hnil (Record.set_entries_ne_nil _ _ _)
  · intro day
    rw [hgranted]
    split_ifs with hd
    · rw [← hd, hday, htotal, add_comm]
      exact hcap
    · rw [zero_add]
      exact h.within day

/-- A settlement works on the file as it is. -/
theorem balanced_rewritten {config : Config} {s : AllowanceState} (h : Balanced config s)
    {day : Text} {fleet : Bool} {before : Allowance}
    (hparse : parseOpenWeightAllowance s.file day fleet true = .ok before) :
    Balanced config { s with file := some (.json before) } := by
  obtain ⟨-, ⟨hfile, rfl⟩ | ⟨parsed, hfile, -, hday, hres⟩⟩ := parse_ok hparse
  · have hnil : s.book = [] := h.fresh (by simp [hfile])
    refine ⟨?_, fun _ => hnil, ?_, ?_, fun _ _ _ => hnil, h.within⟩
    · rintro f hf id row hrow
      cases hf
      cases hrow
    · rintro f hf
      cases hf
      simp only [granted, hnil]
      rfl
    · rintro f hf g hg
      rw [hnil] at hg
      cases hg
  · have hday : before.utcDay = parsed.utcDay := hday
    have hres : before.reservations = parsed.reservations := hres
    refine ⟨?_, fun hne => absurd rfl (hne _), ?_, ?_, ?_, h.within⟩
    · rintro f hf id row hrow
      cases hf
      rw [hres] at hrow
      rw [hday]
      exact h.synced parsed hfile id row hrow
    · rintro f hf
      cases hf
      rw [hres, hday]
      exact h.total parsed hfile
    · rintro f hf
      cases hf
      rw [hday]
      exact h.days parsed hfile
    · rintro f hf
      cases hf
      rw [hres]
      exact h.empty parsed hfile

/-- Recording a lower amount for a row of the file. -/
theorem balanced_recorded {config : Config} {s : AllowanceState} (h : Balanced config s)
    {before : Allowance} {requestId : Text} {row recorded : CashReservation}
    (hfile : s.file = some (.json before))
    (hrow : before.reservations.get? requestId = some row) (hfin : row.committedUsd ≠ ⊤)
    (hle : recorded.committedUsd ≤ row.committedUsd)
    (hsynced : (AllowanceState.mk (some (.json (before.setRow requestId recorded)))
      (assign (before.utcDay, requestId) recorded s.book)).Synced) :
    Balanced config
      { file := some (.json (before.setRow requestId recorded))
        book := assign (before.utcDay, requestId) recorded s.book } := by
  have hentry := h.synced before hfile requestId row hrow
  have hgranted : ∀ day, (AllowanceState.mk (some (.json (before.setRow requestId recorded)))
      (assign (before.utcDay, requestId) recorded s.book)).granted day +
        (if before.utcDay = day then row.committedUsd else 0) =
      s.granted day + (if before.utcDay = day then recorded.committedUsd else 0) := fun day =>
    sum_assign (fun g : (Text × Text) × CashReservation =>
      if g.1.1 = day then g.2.committedUsd else 0) recorded hentry
  have hsum : openWeightCommittedUsd (before.setRow requestId recorded).reservations.entries +
      row.committedUsd =
        openWeightCommittedUsd before.reservations.entries + recorded.committedUsd :=
    sum_assign (fun e : Text × CashReservation => e.2.committedUsd) recorded hrow
  refine ⟨hsynced, fun hne => absurd rfl (hne _), ?_, ?_, ?_, ?_⟩
  · rintro f hf
    cases hf
    have hbook := hgranted before.utcDay
    rw [if_pos rfl, if_pos rfl, h.total before hfile, ← hsum] at hbook
    exact (WithTop.add_right_inj hfin).mp hbook
  · rintro f hf g hg
    cases hf
    have hkey : g.1 ∈ (assign (before.utcDay, requestId) recorded s.book).map Prod.fst :=
      List.mem_map_of_mem hg
    have hmem : (before.utcDay, requestId) ∈ s.book.map Prod.fst :=
      List.mem_map_of_mem (mem_of_entryOf hentry)
    rw [keys_assign_of_mem recorded hmem] at hkey
    obtain ⟨g', hg', heq⟩ := List.mem_map.mp hkey
    rw [← heq]
    exact h.days before hfile g' hg'
  · rintro f hf hnil
    cases hf
    exact absurd hnil (Record.set_entries_ne_nil _ _ _)
  · intro day
    refine le_trans ?_ (h.within day)
    have hbook := hgranted day
    split_ifs at hbook with hd
    · refine (WithTop.add_le_add_iff_right hfin).mp ?_
      rw [hbook]
      exact add_le_add_right hle _
    · rw [add_zero, add_zero] at hbook
      exact hbook.le

theorem balanced_step {config : Config} {s t : AllowanceState} {call : Call}
    (h : Balanced config s) (hstep : Guarded (Step config) (InOrder config) s call t) :
    Balanced config t := by
  have hsynced := synced_step h.synced hstep.1
  cases step_moves hstep.1 with
  | refused => exact h
  | granted hparse hnew hcap =>
      exact balanced_granted h hparse hnew (hcap hstep.2.1) hstep.2 hsynced
  | rewritten hparse => exact balanced_rewritten h hparse
  | @recorded input pilot before row identity hparse hrow hday hident hmatch =>
      have hvalid := (parse_ok hparse).1 _ (Record.mem_of_get? hrow)
      exact balanced_recorded (balanced_rewritten h hparse) rfl hrow
        (validReservation_committed hvalid)
        (recordCashAccounting_le (validReservation_reserved hvalid)) hsynced

/-- The daily law: from a file within the cap, a run whose reservations are in order never grants
more than the cap for a day; in every state it reaches, whatever call comes next leaves each
reservation as it is unless it is a receipt with the identity of one not yet settled. -/
theorem allowance_kept {config : Config} {file : Option Snapshot} {calls : List Call}
    {s : AllowanceState} (hstart : ∀ day, (start file).granted day ≤ config.cap)
    (hr : Run (Guarded (Step config) (InOrder config)) (start file) calls s) :
    (∀ day, s.granted day ≤ config.cap) ∧
      ∀ call t, Step config s call t → BookKept call s t := by
  have hbal : Balanced config s :=
    hr.invariant (fun _ _ _ h hstep => balanced_step h hstep) (balanced_start hstart)
  exact ⟨hbal.within, fun call t hstep => bookKept_step hbal.synced hstep⟩

/-- A reservation of the smallest request at `gpt-5-nano`, which is granted 32/10000. -/
def nanoRequest (requestId atIso : Text) : Call :=
  .reserve { requestId := requestId, deployment := "gpt-5-nano".toList, requestBodyBytes := 0
             atIso := atIso } {}

/-- A local file with a daily cap of four tenths of a cent. -/
def localConfig : Config := ⟨some (.plain ((4 / 1000 : ℚ) : Usd)), none⟩

/-- The day of a file that parses. -/
def fileDay : Snapshot → Text
  | .unreadable => []
  | .json f => f.utcDay

theorem granted_start_none (day : Text) : (start none).granted day = 0 := rfl

/-- Two requests around midnight, in order: each day is granted one. -/
theorem granted_on_both_days :
    ∃ calls s, Run (Guarded (Step localConfig) (InOrder localConfig)) (start none) calls s ∧
      s.granted "2026-10-27".toList = ((32 / 10000 : ℚ) : Usd) ∧
      s.granted "2026-10-28".toList = ((32 / 10000 : ℚ) : Usd) ∧
      ∀ day, s.granted day ≤ localConfig.cap := by
  have hr : Run (Guarded (Step localConfig) (InOrder localConfig)) (start none)
      [nanoRequest "a".toList "2026-10-27T23:59:59Z".toList,
        nanoRequest "b".toList "2026-10-28T00:00:00Z".toList]
      (((start none).next localConfig (nanoRequest "a".toList "2026-10-27T23:59:59Z".toList)).next
        localConfig (nanoRequest "b".toList "2026-10-28T00:00:00Z".toList)) := by
    refine .cons ⟨rfl, ?_⟩ (.single ⟨rfl, ?_⟩)
    · refine ⟨by decide +kernel, ?_⟩
      rintro - f hf
      cases hf
    · refine ⟨by decide +kernel, ?_⟩
      rintro - f hf -
      have hday : ((start none).next localConfig
          (nanoRequest "a".toList "2026-10-27T23:59:59Z".toList)).file.map fileDay =
            some "2026-10-27".toList := by decide +kernel
      rw [hf] at hday
      rw [show f.utcDay = "2026-10-27".toList from Option.some.inj hday]
      decide +kernel
  refine ⟨_, _, hr, by decide +kernel, by decide +kernel, (allowance_kept ?_ hr).1⟩
  intro day
  rw [granted_start_none]
  decide +kernel

/-- A request for the day before, made after midnight, starts that day's allowance again. -/
theorem granted_twice :
    ∃ calls s, Run (Step localConfig) (start none) calls s ∧
      (∀ day, (start none).granted day ≤ localConfig.cap) ∧
      ¬ s.granted "2026-10-27".toList ≤ localConfig.cap := by
  refine ⟨[nanoRequest "a".toList "2026-10-27T23:59:59Z".toList,
    nanoRequest "b".toList "2026-10-28T00:00:00Z".toList,
    nanoRequest "c".toList "2026-10-27T23:59:59Z".toList], _,
    .cons rfl (.cons rfl (.single rfl)), ?_, by decide +kernel⟩
  intro day
  rw [granted_start_none]
  decide +kernel

end AllowanceState

end Remudero.Cash
