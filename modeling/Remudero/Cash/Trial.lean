import Remudero.Lib.Row

/-! # The evidence of the cash trial

`summarizeCashTrial` of `lib/cash-trial.ts`.  The rows of the ledger are folded into four maps: the arm of
each tagged run, the assignments of the cash arm with the time they were tagged, the verdict of each run,
and one call for each assignment, its first receipt.  A receipt that differs from the first one makes the
call conflicting.  Then the runs are counted, and the calls of the cash assignments are charged.

Amounts are integers of micro-dollars: `micro` is the amount of a JSON number, `none` if it is not finite.

* `charge` is what the loop over the cash assignments does with one of them, and `summarizeCashTrial_spec` says
  what the whole function returns in its terms.
* `NoneHidden` says that no receipt of the day comes after a first one of another day, and `Aligned` that the receipts
  of each cash assignment are all of the day or all of other days.
* The main result is `cash_trial_evidence`: what is charged is what is due, and which orders of the rows give the
  same evidence. -/

namespace Remudero.Cash.Trial

open Remudero.Lib

def cashTrialId : String := "cash-simple"

inductive CashTrialArm where
  | cash
  | control
deriving DecidableEq

/-! ### Rows -/

/-- `value?.name`; only objects have the names that are read here. -/
def member (value : Option Json) (name : String) : Option Json :=
  match value with
  | some (.obj fields) => Row.field fields name
  | _ => none

def isText (value : Option Json) (t : String) : Bool :=
  match value with
  | some (.str s) => s = t.toList
  | _ => false

/-- `typeof value === "string" ? value : undefined`. -/
def textOf : Option Json → Option Text
  | some (.str t) => some t
  | _ => none

/-- A `run_id` that is a string and not empty. -/
def runIdOf (row : Lib.Row) : Option Text := (row.str "run_id").filter fun t => !t.isEmpty

def tsOf (row : Lib.Row) : Text := (row.str "ts").getD []

def assignmentId (row : Lib.Row) : Option Text := textOf (member (row.field "worker_assignment") "id")

def decision (row : Lib.Row) : Option Json := member (member (row.field "worker_assignment") "routing") "decision"

/-- The row tags its run for the trial. -/
def tags (row : Lib.Row) : Bool :=
  isText (row.field "step") "worker.assignment" && isText (member (decision row) "trial") cashTrialId

def trialArm (row : Lib.Row) : Option CashTrialArm :=
  if isText (member (decision row) "trialArm") "cash" then some .cash
  else if isText (member (decision row) "trialArm") "control" then some .control
  else none

/-- The verdict opened a pull request. -/
def opened (row : Lib.Row) : Bool :=
  (row.str "pr_url").any (fun url => !url.isEmpty) && !isText (row.field "verdict") "failed"

section

variable (micro : Text → Option ℤ)

def finiteNumber : Option Json → Option ℤ
  | some (.num shown) => micro shown
  | _ => none

def spendAmountUsd (row : Lib.Row) : Option ℤ :=
  if isText (row.field "provider") "cash" && (isText (row.field "token_usage_state") "unavailable" ||
      isText (row.field "token_usage_state") "partial") then none
  else (finiteNumber micro (row.field "total_cost_usd")).or (finiteNumber micro (row.field "cost_usd"))

structure Receipt where
  ts : Text
  usd : Option ℤ
  provider : Option Json
  billingMode : Option Json

def receiptOf (row : Lib.Row) : Receipt := ⟨tsOf row, spendAmountUsd micro row, row.field "provider", row.field "billing_mode"⟩

def Receipt.same (r q : Receipt) : Bool :=
  r.ts = q.ts && r.usd = q.usd && Json.strictEq r.provider q.provider && Json.strictEq r.billingMode q.billingMode

/-- The assignment that the row is a receipt of. -/
def receiptFor (row : Lib.Row) : Option Text :=
  if isText (row.field "step") "implement.done" || isText (row.field "step") "implement.resumed" then
    row.str "selection_assignment_id"
  else none

/-! ### The fold over the rows -/

structure Call where
  receipt : Receipt
  conflicting : Bool

structure Maps where
  armByRun : Record Text CashTrialArm
  cashAssignments : Record Text Text
  verdicts : Record Text Bool
  calls : Record Text Call

def Maps.empty : Maps := ⟨∅, ∅, ∅, ∅⟩

/-- A row that tags its run. -/
def Maps.tag (m : Maps) (run : Text) (row : Lib.Row) : Maps :=
  let m := match trialArm row with
    | some arm => { m with armByRun := m.armByRun.set run arm }
    | none => m
  match trialArm row, assignmentId row with
  | some .cash, some id => { m with cashAssignments := m.cashAssignments.set id (tsOf row) }
  | _, _ => m

def Maps.receive (m : Maps) (id : Text) (current : Receipt) : Maps :=
  match m.calls.get? id with
  | some prior =>
      if prior.receipt.same current then m
      else { m with calls := m.calls.set id { prior with conflicting := true } }
  | none => { m with calls := m.calls.set id ⟨current, false⟩ }

def Maps.read (m : Maps) (row : Lib.Row) : Maps :=
  let m := match runIdOf row with
    | some run =>
        if tags row then m.tag run row
        else if isText (row.field "step") "verdict" then { m with verdicts := m.verdicts.set run (opened row) }
        else m
    | none => m
  match receiptFor row with
  | some id => m.receive id (receiptOf micro row)
  | none => m

def mapsOf (rows : List Lib.Row) : Maps := rows.foldl (Maps.read micro) .empty

/-! ### The evidence -/

structure CashTrialArmEvidence where
  runs : ℕ
  prs : ℕ
deriving DecidableEq

structure CashTrialEvidence where
  cash : CashTrialArmEvidence
  control : CashTrialArmEvidence
  spentTodayUsd : ℤ
  spendUnavailableReason : Option Text
deriving DecidableEq

def CashTrialArmEvidence.add (e : CashTrialArmEvidence) (opened : Bool) : CashTrialArmEvidence :=
  ⟨e.runs + 1, if opened then e.prs + 1 else e.prs⟩

/-- A run of `armByRun`. -/
def countRun (verdicts : Record Text Bool) (e : CashTrialEvidence) (entry : Text × CashTrialArm) : CashTrialEvidence :=
  match verdicts.get? entry.1 with
  | none => e
  | some opened =>
      match entry.2 with
      | .cash => { e with cash := e.cash.add opened }
      | .control => { e with control := e.control.add opened }

def noReceipt : Text := "cash assignment has no worker-call cost receipt".toList

def badReceipt : Text := "cash worker-call cost receipt is missing or inconsistent".toList

/-- An assignment of `cashAssignments`. -/
def countSpend (calls : Record Text Call) (today : Text) (e : CashTrialEvidence) (entry : Text × Text) : CashTrialEvidence :=
  match calls.get? entry.1 with
  | none => if today.isPrefixOf entry.2 then { e with spendUnavailableReason := some noReceipt } else e
  | some call =>
      if !today.isPrefixOf call.receipt.ts then e
      else if call.conflicting || !isText call.receipt.provider "cash" || !isText call.receipt.billingMode "api" then
        { e with spendUnavailableReason := some badReceipt }
      else
        match call.receipt.usd with
        | none => { e with spendUnavailableReason := some badReceipt }
        | some usd =>
            if usd < 0 then { e with spendUnavailableReason := some badReceipt }
            else { e with spentTodayUsd := e.spentTodayUsd + usd }

def summarizeCashTrial (rows : List Lib.Row) (today : Text) : CashTrialEvidence :=
  let m := mapsOf micro rows
  let counted := m.armByRun.entries.foldl (countRun m.verdicts) ⟨⟨0, 0⟩, ⟨0, 0⟩, 0, none⟩
  m.cashAssignments.entries.foldl (countSpend m.calls today) counted

/-! ### What the maps have -/

/-- The entry of `armByRun` that a row sets, if it sets one. -/
def armEntry (row : Lib.Row) : Option (Text × CashTrialArm) :=
  if tags row then (runIdOf row).bind fun run => (trialArm row).map fun arm => (run, arm) else none

/-- That of `cashAssignments`. -/
def cashEntry (row : Lib.Row) : Option (Text × Text) :=
  if tags row && (runIdOf row).isSome && trialArm row = some .cash then (assignmentId row).map fun id => (id, tsOf row)
  else none

/-- That of `verdicts`. -/
def verdictEntry (row : Lib.Row) : Option (Text × Bool) :=
  if isText (row.field "step") "verdict" then (runIdOf row).map fun run => (run, opened row) else none

/-- The receipts of an assignment, in the order of the rows. -/
def receiptsOf (id : Text) (rows : List Lib.Row) : List Receipt :=
  rows.filterMap fun row => if receiptFor row = some id then some (receiptOf micro row) else none

/-- The call that some receipts make. -/
def callOf : List Receipt → Option Call
  | [] => none
  | r :: rs => some ⟨r, rs.any fun q => !r.same q⟩

/-! ### What is due -/

/-- The assignments tagged as the cash arm. -/
def cashIds (rows : List Lib.Row) : List Text := ((rows.filterMap cashEntry).map Prod.fst).dedup

def onDay (today : Text) (r : Receipt) : Bool := today.isPrefixOf r.ts

/-- The amounts of the distinct receipts of the day. -/
def dueFor (rows : List Lib.Row) (today id : Text) : ℤ :=
  ((((receiptsOf micro id rows).filter (onDay today)).eraseDupsBy Receipt.same).map fun r => r.usd.getD 0).sum

def dueToday (rows : List Lib.Row) (today : Text) : ℤ := ((cashIds rows).map (dueFor micro rows today)).sum

/-- No cash assignment has a first receipt of another day and a later one of the day. -/
def NoneHidden (rows : List Lib.Row) (today : Text) : Prop :=
  ∀ id ∈ cashIds rows, ∀ r rest, receiptsOf micro id rows = r :: rest → onDay today r = false →
    ∀ q ∈ rest, onDay today q = false

/-- The receipts of each cash assignment are all of the day or all of other days. -/
def Aligned (rows : List Lib.Row) (today : Text) : Prop :=
  ∀ id ∈ cashIds rows, ∀ r ∈ receiptsOf micro id rows, ∀ q ∈ receiptsOf micro id rows, onDay today r = onDay today q

/-- Each run has the same last arm and the same last verdict, and each assignment is tagged last at the
same time. -/
structure SameLast (rows rows' : List Lib.Row) : Prop where
  arm : ∀ run, lastValue run (rows.filterMap armEntry) = lastValue run (rows'.filterMap armEntry)
  verdict : ∀ run, lastValue run (rows.filterMap verdictEntry) = lastValue run (rows'.filterMap verdictEntry)
  tagged : ∀ id, lastValue id (rows.filterMap cashEntry) = lastValue id (rows'.filterMap cashEntry)

end

/-! ### The fold, map by map -/

section maps

variable {micro : Text → Option ℤ}

theorem isText_unique {value : Option Json} {s t : String} (hs : isText value s = true) (ht : isText value t = true) :
    s.toList = t.toList := by
  unfold isText at hs ht
  split at hs
  · simp only [decide_eq_true_eq] at hs ht
    rw [← hs, ← ht]
  · cases hs

theorem not_verdict_of_tags {row : Lib.Row} (h : tags row = true) : isText (row.field "step") "verdict" = false := by
  rw [tags, Bool.and_eq_true] at h
  by_contra hverdict
  rw [Bool.not_eq_false] at hverdict
  exact absurd (isText_unique h.1 hverdict) (by decide)

theorem receive_frame (m : Maps) (id : Text) (r : Receipt) :
    (m.receive id r).armByRun = m.armByRun ∧ (m.receive id r).cashAssignments = m.cashAssignments ∧
      (m.receive id r).verdicts = m.verdicts := by
  unfold Maps.receive
  split
  · split_ifs <;> exact ⟨rfl, rfl, rfl⟩
  · exact ⟨rfl, rfl, rfl⟩

theorem tag_spec (m : Maps) (run : Text) (row : Lib.Row) :
    (m.tag run row).armByRun = m.armByRun.setSome ((trialArm row).map fun arm => (run, arm)) ∧
      (m.tag run row).cashAssignments = m.cashAssignments.setSome
        (if trialArm row = some .cash then (assignmentId row).map fun id => (id, tsOf row) else none) ∧
      (m.tag run row).verdicts = m.verdicts ∧ (m.tag run row).calls = m.calls := by
  unfold Maps.tag
  cases harm : trialArm row with
  | none => exact ⟨rfl, rfl, rfl, rfl⟩
  | some arm =>
      cases arm with
      | control => exact ⟨rfl, rfl, rfl, rfl⟩
      | cash => cases hid : assignmentId row <;> exact ⟨rfl, rfl, rfl, rfl⟩

/-- A row before its receipt is looked at. -/
def Maps.note (m : Maps) (row : Lib.Row) : Maps :=
  match runIdOf row with
  | some run =>
      if tags row then m.tag run row
      else if isText (row.field "step") "verdict" then { m with verdicts := m.verdicts.set run (opened row) }
      else m
  | none => m

theorem note_spec (m : Maps) (row : Lib.Row) :
    (m.note row).armByRun = m.armByRun.setSome (armEntry row) ∧
      (m.note row).cashAssignments = m.cashAssignments.setSome (cashEntry row) ∧
      (m.note row).verdicts = m.verdicts.setSome (verdictEntry row) ∧ (m.note row).calls = m.calls := by
  unfold Maps.note armEntry cashEntry verdictEntry
  cases hrun : runIdOf row with
  | none =>
      refine ⟨?_, ?_, ?_, rfl⟩
      · cases htags : tags row <;> rfl
      · simp [Record.setSome]
      · cases hverdict : isText (row.field "step") "verdict" <;> rfl
  | some run =>
      cases htags : tags row with
      | true =>
          obtain ⟨harm, hcash, hverdicts, hcalls⟩ := tag_spec m run row
          have hverdict := not_verdict_of_tags htags
          simp only [if_true, hverdict, Bool.false_eq_true, if_false, Option.bind_some, Option.isSome_some,
            Bool.and_self, Bool.true_and, decide_eq_true_eq]
          exact ⟨harm, hcash, hverdicts, hcalls⟩
      | false =>
          simp only [Bool.false_eq_true, if_false, Bool.false_and]
          cases hverdict : isText (row.field "step") "verdict" with
          | true => exact ⟨rfl, rfl, rfl, rfl⟩
          | false => exact ⟨rfl, rfl, rfl, rfl⟩

theorem read_eq (m : Maps) (row : Lib.Row) :
    m.read micro row = match receiptFor row with
      | some id => (m.note row).receive id (receiptOf micro row)
      | none => m.note row := rfl

theorem read_spec (m : Maps) (row : Lib.Row) :
    (m.read micro row).armByRun = m.armByRun.setSome (armEntry row) ∧
      (m.read micro row).cashAssignments = m.cashAssignments.setSome (cashEntry row) ∧
      (m.read micro row).verdicts = m.verdicts.setSome (verdictEntry row) := by
  obtain ⟨harm, hcash, hverdicts, -⟩ := note_spec m row
  rw [read_eq]
  cases receiptFor row with
  | none => exact ⟨harm, hcash, hverdicts⟩
  | some id =>
      obtain ⟨harm', hcash', hverdicts'⟩ := receive_frame (m.note row) id (receiptOf micro row)
      exact ⟨harm'.trans harm, hcash'.trans hcash, hverdicts'.trans hverdicts⟩

theorem mapsOf_snoc (rows : List Lib.Row) (row : Lib.Row) :
    mapsOf micro (rows ++ [row]) = (mapsOf micro rows).read micro row := by
  rw [mapsOf, List.foldl_append]
  rfl

/-- The first three maps are set row by row. -/
theorem mapsOf_eq (rows : List Lib.Row) :
    (mapsOf micro rows).armByRun = rows.foldl (fun r row => r.setSome (armEntry row)) ∅ ∧
      (mapsOf micro rows).cashAssignments = rows.foldl (fun r row => r.setSome (cashEntry row)) ∅ ∧
      (mapsOf micro rows).verdicts = rows.foldl (fun r row => r.setSome (verdictEntry row)) ∅ := by
  induction rows using List.reverseRecOn with
  | nil => exact ⟨rfl, rfl, rfl⟩
  | append_singleton rows row ih =>
      obtain ⟨harm, hcash, hverdicts⟩ := @read_spec micro (mapsOf micro rows) row
      simp only [mapsOf_snoc, List.foldl_append, List.foldl_cons, List.foldl_nil, harm, hcash, hverdicts, ih, and_self]

theorem callOf_snoc (rs : List Receipt) (q : Receipt) :
    callOf (rs ++ [q]) = some (match callOf rs with
      | none => ⟨q, false⟩
      | some call => ⟨call.receipt, call.conflicting || !call.receipt.same q⟩) := by
  cases rs with
  | nil => rfl
  | cons r rs => simp [callOf, List.any_append]

theorem get?_receive_self (m : Maps) (id : Text) (q : Receipt) :
    (m.receive id q).calls.get? id = some (match m.calls.get? id with
      | none => ⟨q, false⟩
      | some call => ⟨call.receipt, call.conflicting || !call.receipt.same q⟩) := by
  unfold Maps.receive
  cases hcall : m.calls.get? id with
  | none => exact Record.get?_set_self _ _ _
  | some call =>
      cases hsame : call.receipt.same q with
      | true => simpa [hsame] using hcall
      | false =>
          simp only [hsame, Bool.false_eq_true, if_false, Bool.not_false, Bool.or_true]
          exact Record.get?_set_self _ _ _

theorem get?_receive_of_ne (m : Maps) {id id' : Text} (q : Receipt) (h : id' ≠ id) :
    (m.receive id q).calls.get? id' = m.calls.get? id' := by
  unfold Maps.receive
  split
  · split_ifs
    · rfl
    · exact Record.get?_set_of_ne _ _ h
  · exact Record.get?_set_of_ne _ _ h

/-- The call of an assignment is made of its receipts. -/
theorem get?_calls (rows : List Lib.Row) (id : Text) :
    (mapsOf micro rows).calls.get? id = callOf (receiptsOf micro id rows) := by
  induction rows using List.reverseRecOn with
  | nil => rfl
  | append_singleton rows row ih =>
      have hnote := (note_spec (mapsOf micro rows) row).2.2.2
      rw [mapsOf_snoc, read_eq, receiptsOf, List.filterMap_append]
      cases hfor : receiptFor row with
      | none =>
          simp only [List.filterMap_cons, hfor, reduceCtorEq, if_false, List.filterMap_nil, List.append_nil, hnote]
          exact ih
      | some id' =>
          by_cases hid : id' = id
          · subst hid
            have hsnoc : List.filterMap (fun row => if receiptFor row = some id' then some (receiptOf micro row) else none)
                [row] = [receiptOf micro row] := by simp [hfor]
            rw [hsnoc, callOf_snoc, get?_receive_self, hnote, ih]
            rfl
          · have hsnoc : List.filterMap (fun row => if receiptFor row = some id then some (receiptOf micro row) else none)
                [row] = [] := by simp [hfor, hid]
            rw [hsnoc, List.append_nil, get?_receive_of_ne _ _ (Ne.symm hid), hnote]
            exact ih

end maps

/-! ### One assignment -/

section charge

/-- What the loop does with a cash assignment: a reason, or an amount. -/
def charge (call : Option Call) (today assignmentTs : Text) : Except Text ℤ :=
  match call with
  | none => if today.isPrefixOf assignmentTs then .error noReceipt else .ok 0
  | some call =>
      if !onDay today call.receipt then .ok 0
      else if call.conflicting || !isText call.receipt.provider "cash" || !isText call.receipt.billingMode "api" then
        .error badReceipt
      else
        match call.receipt.usd with
        | none => .error badReceipt
        | some usd => if usd < 0 then .error badReceipt else .ok usd

def amountOf : Except Text ℤ → ℤ
  | .ok n => n
  | .error _ => 0

theorem countSpend_eq (calls : Record Text Call) (today : Text) (e : CashTrialEvidence) (entry : Text × Text) :
    countSpend calls today e entry = match charge (calls.get? entry.1) today entry.2 with
      | .error reason => { e with spendUnavailableReason := some reason }
      | .ok n => { e with spentTodayUsd := e.spentTodayUsd + n } := by
  have hzero : ({ e with spentTodayUsd := e.spentTodayUsd + 0 } : CashTrialEvidence) = e := by rw [add_zero]
  unfold countSpend charge
  cases hcall : calls.get? entry.1 with
  | none =>
      dsimp only
      cases today.isPrefixOf entry.2 with
      | true => rfl
      | false => exact hzero.symm
  | some call =>
      dsimp only
      by_cases hday : onDay today call.receipt = true
      · have hday' : today.isPrefixOf call.receipt.ts = true := hday
        rw [hday, hday']
        by_cases hbad : (call.conflicting || !isText call.receipt.provider "cash" ||
            !isText call.receipt.billingMode "api") = true
        · simp [hbad]
        · simp only [Bool.not_true, Bool.false_eq_true, if_false, hbad]
          cases call.receipt.usd with
          | none => rfl
          | some usd => by_cases hneg : usd < 0 <;> simp [hneg]
      · rw [Bool.not_eq_true] at hday
        have hday' : today.isPrefixOf call.receipt.ts = false := hday
        rw [hday, hday']
        exact hzero.symm

/-- The loop over the cash assignments. -/
theorem foldl_countSpend (calls : Record Text Call) (today : Text) (entries : List (Text × Text))
    (e : CashTrialEvidence) :
    let r := entries.foldl (countSpend calls today) e
    r.cash = e.cash ∧ r.control = e.control ∧
      r.spentTodayUsd = e.spentTodayUsd +
        (entries.map fun entry => amountOf (charge (calls.get? entry.1) today entry.2)).sum ∧
      (r.spendUnavailableReason.isSome ↔ e.spendUnavailableReason.isSome ∨
        ∃ entry ∈ entries, ∃ reason, charge (calls.get? entry.1) today entry.2 = .error reason) := by
  induction entries generalizing e with
  | nil => simp
  | cons entry entries ih =>
      rw [List.foldl_cons, countSpend_eq]
      cases hcharge : charge (calls.get? entry.1) today entry.2 with
      | error reason =>
          obtain ⟨hcash, hcontrol, hspent, hreason⟩ := ih { e with spendUnavailableReason := some reason }
          refine ⟨hcash, hcontrol, ?_, ?_⟩
          · rw [hspent, List.map_cons, List.sum_cons, hcharge]
            simp [amountOf]
          · rw [hreason]
            simp [hcharge]
      | ok n =>
          obtain ⟨hcash, hcontrol, hspent, hreason⟩ := ih { e with spentTodayUsd := e.spentTodayUsd + n }
          refine ⟨hcash, hcontrol, ?_, ?_⟩
          · rw [hspent, List.map_cons, List.sum_cons, hcharge]
            simp [amountOf, add_assoc]
          · rw [hreason]
            simp [hcharge]

theorem foldl_countRun (verdicts : Record Text Bool) (entries : List (Text × CashTrialArm)) (e : CashTrialEvidence) :
    let r := entries.foldl (countRun verdicts) e
    r.spentTodayUsd = e.spentTodayUsd ∧ r.spendUnavailableReason = e.spendUnavailableReason := by
  induction entries generalizing e with
  | nil => exact ⟨rfl, rfl⟩
  | cons entry entries ih =>
      rw [List.foldl_cons]
      have hone : (countRun verdicts e entry).spentTodayUsd = e.spentTodayUsd ∧
          (countRun verdicts e entry).spendUnavailableReason = e.spendUnavailableReason := by
        unfold countRun
        split
        · exact ⟨rfl, rfl⟩
        · split <;> exact ⟨rfl, rfl⟩
      obtain ⟨hspent, hreason⟩ := ih (countRun verdicts e entry)
      exact ⟨hspent.trans hone.1, hreason.trans hone.2⟩

theorem countRun_comm (verdicts : Record Text Bool) (e : CashTrialEvidence) (a b : Text × CashTrialArm) :
    countRun verdicts (countRun verdicts e a) b = countRun verdicts (countRun verdicts e b) a := by
  have hadd : ∀ (x : CashTrialArmEvidence) (o o' : Bool), (x.add o).add o' = (x.add o').add o := by
    intro x o o'
    cases o <;> cases o' <;> rfl
  unfold countRun
  cases hva : verdicts.get? a.1 with
  | none => simp only []
  | some oa =>
      cases hvb : verdicts.get? b.1 with
      | none => simp only []
      | some ob =>
          cases a.2 with
          | cash =>
              cases b.2 with
              | cash => simp only [hadd _ oa ob]
              | control => simp only []
          | control =>
              cases b.2 with
              | cash => simp only []
              | control => simp only [hadd _ oa ob]

end charge

/-! ### The receipts of one assignment -/

section receipts

theorem Receipt.eq_of_same {r q : Receipt} (h : r.same q = true) : r = q := by
  obtain ⟨ts, usd, provider, billingMode⟩ := r
  obtain ⟨ts', usd', provider', billingMode'⟩ := q
  simp only [Receipt.same, Bool.and_eq_true, decide_eq_true_eq] at h
  rw [h.1.1.1, h.1.1.2, Json.eq_of_strictEq h.1.2, Json.eq_of_strictEq h.2]

theorem Receipt.same_comm {r q : Receipt} (h : r.same q = true) : q.same r = true := by
  have heq := Receipt.eq_of_same h
  rw [heq] at h ⊢
  exact h

/-- Receipts that do not differ from the first one do not differ from one another. -/
theorem not_conflicting_iff {r : Receipt} {rs : List Receipt} :
    (rs.any fun q => !r.same q) = false ↔ (r :: rs).Pairwise fun a b => a.same b = true := by
  have hany : (rs.any fun q => !r.same q) = false ↔ ∀ q ∈ rs, r.same q = true := by simp
  rw [hany, List.pairwise_cons]
  refine ⟨fun h => ⟨h, ?_⟩, fun h => h.1⟩
  apply List.pairwise_of_forall_mem_list
  intro a ha b hb
  rw [← Receipt.eq_of_same (h a ha)]
  exact h b hb

/-- The order of the receipts does not matter to what is charged. -/
theorem charge_callOf_perm {rs qs : List Receipt} (hperm : rs.Perm qs) {today : Text} (assignmentTs : Text)
    (hday : ∀ r ∈ rs, ∀ q ∈ rs, onDay today r = onDay today q) :
    charge (callOf rs) today assignmentTs = charge (callOf qs) today assignmentTs := by
  cases rs with
  | nil => rw [List.nil_perm.mp hperm]
  | cons r rs =>
      cases qs with
      | nil => exact absurd hperm.symm (by simp)
      | cons q qs =>
          have hmem : q ∈ r :: rs := hperm.symm.subset List.mem_cons_self
          have hsameDay := hday r List.mem_cons_self q hmem
          have hconflict : (rs.any fun p => !r.same p) = qs.any fun p => !q.same p := by
            rw [Bool.eq_iff_iff, ← not_iff_not, Bool.not_eq_true, Bool.not_eq_true, not_conflicting_iff,
              not_conflicting_iff]
            exact List.Perm.pairwise_iff Receipt.same_comm hperm
          simp only [callOf, charge]
          rw [← hsameDay, ← hconflict]
          cases hone : rs.any fun p => !r.same p with
          | true => rfl
          | false =>
              have hsame : q = r := by
                obtain rfl | hq := List.mem_cons.mp hmem
                · rfl
                · rw [not_conflicting_iff, List.pairwise_cons] at hone
                  exact (Receipt.eq_of_same (hone.1 q hq)).symm
              rw [hsame]

/-- What is charged, if nothing is wrong, is what the distinct receipts of the day come to. -/
theorem charge_callOf {rs : List Receipt} {today assignmentTs : Text} {n : ℤ}
    (hhidden : ∀ r rest, rs = r :: rest → onDay today r = false → ∀ q ∈ rest, onDay today q = false)
    (h : charge (callOf rs) today assignmentTs = .ok n) :
    (((rs.filter (onDay today)).eraseDupsBy Receipt.same).map fun r => r.usd.getD 0).sum = n := by
  cases rs with
  | nil =>
      unfold callOf charge at h
      dsimp only at h
      split at h
      · cases h
      · cases h
        rfl
  | cons r rs =>
      simp only [callOf, charge] at h
      cases htoday : onDay today r with
      | false =>
          have hnone : (r :: rs).filter (onDay today) = [] := by
            apply List.filter_eq_nil_iff.mpr
            intro q hq
            rw [Bool.not_eq_true]
            obtain rfl | hq := List.mem_cons.mp hq
            · exact htoday
            · exact hhidden r rs rfl htoday q hq
          rw [htoday] at h
          cases h
          rw [hnone]
          rfl
      | true =>
          rw [htoday] at h
          simp only [Bool.not_true, Bool.false_eq_true, if_false] at h
          split at h
          · cases h
          · next hgood =>
              simp only [Bool.or_eq_true, not_or, Bool.not_eq_true] at hgood
              -- no receipt differs from the first one, so that is the only distinct one
              have hconflict := (List.pairwise_cons.mp (not_conflicting_iff.mp hgood.1.1)).1
              have hall : (r :: rs).filter (onDay today) = r :: rs := by
                apply List.filter_eq_self.mpr
                intro q hq
                obtain rfl | hq := List.mem_cons.mp hq
                · exact htoday
                · rw [← Receipt.eq_of_same (hconflict q hq)]
                  exact htoday
              have hrest : rs.filter (fun q => q.same r = false) = [] := by
                apply List.filter_eq_nil_iff.mpr
                intro q hq
                simp [Receipt.same_comm (hconflict q hq)]
              rw [hall, List.eraseDupsBy_cons, hrest]
              cases husd : r.usd with
              | none =>
                  rw [husd] at h
                  cases h
              | some usd =>
                  rw [husd] at h
                  dsimp only at h
                  split at h
                  · cases h
                  · cases h
                    simp [husd]

end receipts

/-! ### The evidence -/

section evidence

variable {micro : Text → Option ℤ}

theorem get?_cashAssignments (rows : List Lib.Row) (id : Text) :
    (mapsOf micro rows).cashAssignments.get? id = lastValue id (rows.filterMap cashEntry) := by
  rw [(mapsOf_eq rows).2.1, Record.get?_foldl_setSome]

theorem mem_cashIds_iff {rows : List Lib.Row} {id : Text} :
    id ∈ cashIds rows ↔ ∃ ts, (id, ts) ∈ (mapsOf micro rows).cashAssignments.entries := by
  have hget := @get?_cashAssignments micro rows id
  rw [cashIds, List.mem_dedup, ← lastValue_isSome_iff, ← hget, Option.isSome_iff_exists]
  exact exists_congr fun ts => Record.mem_entries_iff.symm

theorem cashIds_perm (rows : List Lib.Row) :
    (cashIds rows).Perm ((mapsOf micro rows).cashAssignments.entries.map Prod.fst) := by
  have hnodup : (cashIds rows).Nodup := List.nodup_dedup _
  rw [List.perm_ext_iff_of_nodup hnodup (mapsOf micro rows).cashAssignments.nodup]
  intro id
  rw [@mem_cashIds_iff micro, List.mem_map]
  constructor
  · rintro ⟨ts, hts⟩
    exact ⟨(id, ts), hts, rfl⟩
  · rintro ⟨⟨id', ts⟩, hts, rfl⟩
    exact ⟨ts, hts⟩

/-- What is charged for each assignment. -/
def chargesOf (micro : Text → Option ℤ) (rows : List Lib.Row) (today : Text) (entry : Text × Text) : Except Text ℤ :=
  charge (callOf (receiptsOf micro entry.1 rows)) today entry.2

theorem summarizeCashTrial_spec (rows : List Lib.Row) (today : Text) :
    let m := mapsOf micro rows
    let counted := m.armByRun.entries.foldl (countRun m.verdicts) ⟨⟨0, 0⟩, ⟨0, 0⟩, 0, none⟩
    let r := summarizeCashTrial micro rows today
    r.cash = counted.cash ∧ r.control = counted.control ∧
      r.spentTodayUsd = (m.cashAssignments.entries.map fun entry => amountOf (chargesOf micro rows today entry)).sum ∧
      (r.spendUnavailableReason.isSome ↔
        ∃ entry ∈ m.cashAssignments.entries, ∃ reason, chargesOf micro rows today entry = .error reason) := by
  intro m counted r
  obtain ⟨hcash, hcontrol, hspent, hreason⟩ := foldl_countSpend m.calls today m.cashAssignments.entries counted
  obtain ⟨hspent', hreason'⟩ := foldl_countRun m.verdicts m.armByRun.entries ⟨⟨0, 0⟩, ⟨0, 0⟩, 0, none⟩
  simp only [m, get?_calls] at hspent hreason
  refine ⟨hcash, hcontrol, ?_, ?_⟩
  · rw [hspent', zero_add] at hspent
    exact hspent
  · rw [hreason'] at hreason
    simp only [Option.isSome_none, Bool.false_eq_true, false_or] at hreason
    exact hreason

/-- What the assignments are charged is due, if no reason is given. -/
theorem dueToday_eq {rows : List Lib.Row} {today : Text} (hhidden : NoneHidden micro rows today)
    (hreason : (summarizeCashTrial micro rows today).spendUnavailableReason = none) :
    dueToday micro rows today = (summarizeCashTrial micro rows today).spentTodayUsd := by
  obtain ⟨-, -, hspent, hany⟩ := @summarizeCashTrial_spec micro rows today
  rw [hreason] at hany
  rw [hspent, dueToday, ((@cashIds_perm micro rows).map (dueFor micro rows today)).sum_eq, List.map_map]
  apply congrArg List.sum
  apply List.map_congr_left
  intro entry hentry
  have hid : entry.1 ∈ cashIds rows := mem_cashIds_iff.mpr ⟨entry.2, hentry⟩
  cases hcharge : chargesOf micro rows today entry with
  | error reason => exact absurd (hany.mpr ⟨entry, hentry, reason, hcharge⟩) (by simp)
  | ok n => exact charge_callOf (hhidden entry.1 hid) hcharge

theorem receiptsOf_perm {rows rows' : List Lib.Row} (h : rows.Perm rows') (id : Text) :
    (receiptsOf micro id rows).Perm (receiptsOf micro id rows') := h.filterMap _

theorem evidence_of_perm {rows rows' : List Lib.Row} {today : Text} (haligned : Aligned micro rows today)
    (hperm : rows.Perm rows') (hlast : SameLast rows rows') :
    let r := summarizeCashTrial micro rows today
    let r' := summarizeCashTrial micro rows' today
    r.cash = r'.cash ∧ r.control = r'.control ∧ r.spentTodayUsd = r'.spentTodayUsd ∧
      r.spendUnavailableReason.isSome = r'.spendUnavailableReason.isSome := by
  intro r r'
  obtain ⟨hcash, hcontrol, hspent, hreason⟩ := @summarizeCashTrial_spec micro rows today
  obtain ⟨hcash', hcontrol', hspent', hreason'⟩ := @summarizeCashTrial_spec micro rows' today
  have harms : (mapsOf micro rows).armByRun.entries.Perm (mapsOf micro rows').armByRun.entries := by
    apply Record.perm_of_get?
    intro run
    rw [(mapsOf_eq rows).1, (mapsOf_eq rows').1, Record.get?_foldl_setSome, Record.get?_foldl_setSome, hlast.arm]
  have hverdicts : ∀ run, (mapsOf micro rows).verdicts.get? run = (mapsOf micro rows').verdicts.get? run := by
    intro run
    rw [(mapsOf_eq rows).2.2, (mapsOf_eq rows').2.2, Record.get?_foldl_setSome, Record.get?_foldl_setSome, hlast.verdict]
  have htagged : (mapsOf micro rows).cashAssignments.entries.Perm (mapsOf micro rows').cashAssignments.entries := by
    apply Record.perm_of_get?
    intro id
    rw [get?_cashAssignments, get?_cashAssignments, hlast.tagged]
  have hcounted : (mapsOf micro rows).armByRun.entries.foldl (countRun (mapsOf micro rows).verdicts)
      ⟨⟨0, 0⟩, ⟨0, 0⟩, 0, none⟩ =
      (mapsOf micro rows').armByRun.entries.foldl (countRun (mapsOf micro rows').verdicts) ⟨⟨0, 0⟩, ⟨0, 0⟩, 0, none⟩ := by
    have hsame : countRun (mapsOf micro rows).verdicts = countRun (mapsOf micro rows').verdicts := by
      funext e entry
      unfold countRun
      rw [hverdicts]
    rw [hsame]
    exact harms.foldl_eq' (fun x _ y _ z => countRun_comm _ z x y) _
  have hcharges : ∀ entry ∈ (mapsOf micro rows).cashAssignments.entries,
      chargesOf micro rows today entry = chargesOf micro rows' today entry := by
    intro entry hentry
    exact charge_callOf_perm (receiptsOf_perm hperm entry.1) entry.2
      (haligned entry.1 (mem_cashIds_iff.mpr ⟨entry.2, hentry⟩))
  refine ⟨?_, ?_, ?_, ?_⟩
  · rw [hcash, hcash', hcounted]
  · rw [hcontrol, hcontrol', hcounted]
  · rw [hspent, hspent', ← (htagged.map _).sum_eq]
    apply congrArg List.sum
    apply List.map_congr_left
    intro entry hentry
    rw [hcharges entry hentry]
  · rw [Bool.eq_iff_iff, hreason, hreason']
    constructor
    · rintro ⟨entry, hentry, reason, herror⟩
      exact ⟨entry, htagged.subset hentry, reason, (hcharges entry hentry).symm.trans herror⟩
    · rintro ⟨entry, hentry, reason, herror⟩
      have hentry' := htagged.symm.subset hentry
      exact ⟨entry, hentry', reason, (hcharges entry hentry').trans herror⟩

end evidence

/-- Where no receipt of the day is hidden behind a first one of another day: if no reason is given, at least what the
distinct receipts of the day come to is spent.  Where the receipts of each cash assignment are all of the day or all of
other days, every order of the rows with the same last arms, verdicts and times of tagging gives the same counts and
amount, and a reason or none. -/
theorem cash_trial_evidence (micro : Text → Option ℤ) (rows : List Lib.Row) (today : Text) :
    (NoneHidden micro rows today → (summarizeCashTrial micro rows today).spendUnavailableReason = none →
      dueToday micro rows today ≤ (summarizeCashTrial micro rows today).spentTodayUsd) ∧
    (Aligned micro rows today → ∀ rows', rows.Perm rows' → SameLast rows rows' →
      (summarizeCashTrial micro rows today).cash = (summarizeCashTrial micro rows' today).cash ∧
      (summarizeCashTrial micro rows today).control = (summarizeCashTrial micro rows' today).control ∧
      (summarizeCashTrial micro rows today).spentTodayUsd = (summarizeCashTrial micro rows' today).spentTodayUsd ∧
      (summarizeCashTrial micro rows today).spendUnavailableReason.isSome =
        (summarizeCashTrial micro rows' today).spendUnavailableReason.isSome) := by
  refine ⟨fun hhidden hreason => (dueToday_eq hhidden hreason).le, ?_⟩
  intro haligned rows' hperm hlast
  exact evidence_of_perm haligned hperm hlast

/-! ### Some rows -/

def textField (name value : String) : Text × Json := (name.toList, .str value.toList)

/-- A run is tagged, with the arm, on 1 January. -/
def taggedRow (arm : String) : Lib.Row :=
  [textField "ts" "2026-01-01T01:00:00Z", textField "run_id" "R", textField "step" "worker.assignment",
    ("worker_assignment".toList, .obj [textField "id" "A", ("routing".toList, .obj [("decision".toList,
      .obj [textField "trial" "cash-simple", textField "trialArm" arm])])])]

/-- A dollar, at a time. -/
def receiptRow (ts : String) : Lib.Row :=
  [textField "ts" ts, textField "step" "implement.done", textField "selection_assignment_id" "A",
    textField "provider" "cash", textField "billing_mode" "api", ("total_cost_usd".toList, .num ['1'])]

def verdictRow (verdict : String) : Lib.Row :=
  [textField "run_id" "R", textField "step" "verdict", textField "pr_url" "u", textField "verdict" verdict]

def oneDollar (t : Text) : Option ℤ := if t = ['1'] then some 1000000 else none

/-- A tagged run with its receipt, written twice, and its verdict: what is spent is due, and with the receipts first it
is the same.  Another receipt of the day after is no condition on the day, and gives a reason. -/
theorem cash_trial_evidence_one_run :
    let rows := [taggedRow "cash", receiptRow "2026-01-01T02:00:00Z", verdictRow "merged", receiptRow "2026-01-01T02:00:00Z"]
    let rows' := [receiptRow "2026-01-01T02:00:00Z", receiptRow "2026-01-01T02:00:00Z", taggedRow "cash", verdictRow "merged"]
    let today := "2026-01-01".toList
    let later := rows ++ [receiptRow "2026-01-02T02:00:00Z"]
    dueToday oneDollar rows today = 1000000 ∧
      dueToday oneDollar rows today ≤ (summarizeCashTrial oneDollar rows today).spentTodayUsd ∧
      (summarizeCashTrial oneDollar rows today).spentTodayUsd = (summarizeCashTrial oneDollar rows' today).spentTodayUsd ∧
      NoneHidden oneDollar later today ∧ (summarizeCashTrial oneDollar later today).spendUnavailableReason = some badReceipt := by
  intro rows rows' today later
  have haligned : Aligned oneDollar rows today := by
    unfold Aligned
    decide +kernel
  have hids : cashIds rows = ["A".toList] ∧ cashIds later = ["A".toList] := by decide +kernel
  have hfirst : ∀ rows, (∀ r ∈ (receiptsOf oneDollar "A".toList rows).head?, onDay today r = true) →
      cashIds rows = ["A".toList] → NoneHidden oneDollar rows today := by
    intro rows hhead hids id hid r rest hreceipts hday
    rw [hids, List.mem_singleton] at hid
    rw [← hid, hreceipts] at hhead
    rw [hhead r rfl] at hday
    cases hday
  have hhidden : NoneHidden oneDollar rows today := hfirst rows (by decide +kernel) hids.1
  have hlater : NoneHidden oneDollar later today := hfirst later (by decide +kernel) hids.2
  have hrows : dueToday oneDollar rows today = 1000000 ∧
      (summarizeCashTrial oneDollar rows today).spendUnavailableReason = none ∧
      rows.filterMap armEntry = rows'.filterMap armEntry ∧ rows.filterMap verdictEntry = rows'.filterMap verdictEntry ∧
      rows.filterMap cashEntry = rows'.filterMap cashEntry ∧
      (summarizeCashTrial oneDollar later today).spendUnavailableReason = some badReceipt := by
    decide +kernel
  obtain ⟨hdue, hreason, harm, hverdict, htagged, hbad⟩ := hrows
  have hsame : SameLast rows rows' :=
    ⟨fun run => by rw [harm], fun run => by rw [hverdict], fun id => by rw [htagged]⟩
  have hperm : rows.Perm rows' := by
    have hlast : ([taggedRow "cash", verdictRow "merged"] ++ [receiptRow "2026-01-01T02:00:00Z"]).Perm
        ([receiptRow "2026-01-01T02:00:00Z"] ++ [taggedRow "cash", verdictRow "merged"]) := List.perm_append_comm
    exact (List.Perm.swap _ _ _).trans (hlast.cons _)
  obtain ⟨hspent, horder⟩ := cash_trial_evidence oneDollar rows today
  exact ⟨hdue, hspent hhidden hreason, (horder haligned rows' hperm hsame).2.2.1, hlater, hbad⟩

/-- A receipt of the day before hides one of the day, and the last of two verdicts of a run counts. -/
theorem cash_trial_day_and_order :
    let hidden := [taggedRow "cash", receiptRow "2025-12-31T23:00:00Z", receiptRow "2026-01-01T02:00:00Z"]
    let merged := [taggedRow "cash", verdictRow "failed", verdictRow "merged"]
    let failed := [taggedRow "cash", verdictRow "merged", verdictRow "failed"]
    let today := "2026-01-01".toList
    ((summarizeCashTrial oneDollar hidden today).spendUnavailableReason = none ∧
      (summarizeCashTrial oneDollar hidden today).spentTodayUsd < dueToday oneDollar hidden today) ∧
    merged.Perm failed ∧
      (summarizeCashTrial oneDollar merged today).cash ≠ (summarizeCashTrial oneDollar failed today).cash := by
  intro hidden merged failed today
  have hvalues : ((summarizeCashTrial oneDollar hidden today).spendUnavailableReason = none ∧
      (summarizeCashTrial oneDollar hidden today).spentTodayUsd < dueToday oneDollar hidden today) ∧
      (summarizeCashTrial oneDollar merged today).cash ≠ (summarizeCashTrial oneDollar failed today).cash := by
    decide +kernel
  exact ⟨hvalues.1, (List.Perm.swap _ _ _).cons _, hvalues.2⟩

end Remudero.Cash.Trial
