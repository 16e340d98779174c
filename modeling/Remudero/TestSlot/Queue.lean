import Remudero.Lib.JsonNumber
import Remudero.Lib.KeepNewest
import Remudero.Lib.Lines
import Remudero.Lib.Row
import Remudero.Lib.Service

/-! # The queue of a test slot

`lib/test-slot-queue.ts`: the tickets of the waiters, whose names sort in the order of arrival, the history of the released
holds, one line of JSON for each, and the estimate of when a waiter gets its slot.

* `ahead_iff`: the tickets ahead of a waiter are the live ones that arrived before it.
* `history_newest`: after any releases the history has the newest holds of every label without a negative hold, in the
  order of their release, and no hold that is negative or was not released.
* `median_between`: the median hold of such a label is never outside its newest `slots + 1` holds.
* `eta_earliest`: an estimate is the earliest time at which a slot is free when the holders and the tickets ahead are served
  in order and each needs the median hold of its label; without one, a label has no measured hold. -/

namespace Remudero.TestSlot.Queue

open Remudero.Lib Number

/-! ### Tickets -/

def padStart (width : ℕ) (t : Text) : Text := List.replicate (width - t.length) '0' ++ t

def testSlotTicketName (arrivedAtMs : ℤ) (sequence : ℕ) (nonce : Text) : Text :=
  padStart 16 (Nat.toDigits 10 arrivedAtMs.toNat) ++
    '-' :: (padStart 8 (Nat.toDigits 10 sequence) ++ '-' :: (nonce ++ ".json".toList))

/-- When a waiter took its ticket: a time that a date can have, and the number of the ticket in its process. -/
structure Arrival where
  arrivedAtMs : ℤ
  sequence : ℕ
  nonce : Text
  inRange : arrivedAtMs ≤ 8640000000000000
  sequence_lt : sequence < 10 ^ 8

namespace Arrival

def name (a : Arrival) : Text := testSlotTicketName a.arrivedAtMs a.sequence a.nonce

/-- A time before 1970 counts as 1970. -/
def ms (a : Arrival) : ℕ := a.arrivedAtMs.toNat

/-- Earlier, or in the same millisecond with a smaller number, and between processes by the nonce. -/
def Before (a b : Arrival) : Prop :=
  a.ms < b.ms ∨ a.ms = b.ms ∧ (a.sequence < b.sequence ∨
    a.sequence = b.sequence ∧ a.nonce ++ ".json".toList < b.nonce ++ ".json".toList)

end Arrival

structure QueuedTicket (τ : Type*) where
  name : Text
  ticket : τ

variable {τ : Type*}

/-- `TICKET_NAME`. -/
def isTicketName (name : Text) : Bool :=
  let stamp := name.take 16
  let number := (name.drop 17).take 8
  let nonce := ((name.drop 26).reverse.drop 5).reverse
  stamp.length == 16 && stamp.all Char.isDigit && name[16]? == some '-' && number.length == 8 && number.all Char.isDigit &&
    name[25]? == some '-' && !nonce.isEmpty && nonce.all (fun c => c.isAlphanum || c == '-') && ".json".toList.isSuffixOf (name.drop 26)

/-- `readTestSlotQueue`; `live` is what the read of a ticket finds there, `none` when it was reaped or is gone. -/
def readTestSlotQueue (live : Text → Option τ) (names : List Text) : List (QueuedTicket τ) :=
  ((names.filter isTicketName).mergeSort fun a b => decide (a ≤ b)).filterMap fun name => (live name).map (⟨name, ·⟩)

/-- The part of `queueAhead` of a waiter that has a ticket. -/
def queueAhead (live : Text → Option τ) (names : List Text) (own : Text) : List (QueuedTicket τ) :=
  (readTestSlotQueue live names).filter fun t => decide (t.name < own)

theorem append_lt_append_iff {x y : Text} (h : x.length = y.length) (u v : Text) :
    x ++ u < y ++ v ↔ x < y ∨ x = y ∧ u < v := by
  induction x generalizing y with
  | nil =>
      obtain rfl := List.length_eq_zero_iff.mp h.symm
      simp
  | cons c x ih =>
      cases y with
      | nil => cases h
      | cons d y =>
          rw [List.cons_append, List.cons_append, List.cons_lt_cons_iff, List.cons_lt_cons_iff, ih (Nat.succ.inj h), List.cons.injEq]
          tauto

/-- The last digits of a number. -/
def lastDigits : ℕ → ℕ → Text
  | 0, _ => []
  | width + 1, n => lastDigits width (n / 10) ++ [Nat.digitChar (n % 10)]

theorem length_lastDigits (width n : ℕ) : (lastDigits width n).length = width := by
  induction width generalizing n with
  | zero => rfl
  | succ width ih => rw [lastDigits, List.length_append, ih, List.length_singleton]

theorem lastDigits_zero (width : ℕ) : lastDigits width 0 = List.replicate width '0' := by
  induction width with
  | zero => rfl
  | succ width ih =>
      rw [lastDigits, Nat.zero_div, ih, List.replicate_succ']
      rfl

theorem padStart_toDigits {width n : ℕ} (h : n < 10 ^ width) (hwidth : 0 < width) :
    padStart width (Nat.toDigits 10 n) = lastDigits width n := by
  induction width generalizing n with
  | zero => omega
  | succ width ih =>
      by_cases hsmall : n < 10
      · rw [Nat.toDigits_of_lt_base hsmall, lastDigits, Nat.div_eq_of_lt hsmall, Nat.mod_eq_of_lt hsmall, lastDigits_zero]
        rfl
      · have hpos : 0 < width := by
          by_contra hzero
          rw [Nat.eq_zero_of_not_pos hzero] at h
          omega
        have hdiv : n / 10 < 10 ^ width := by
          rw [pow_succ] at h
          exact Nat.div_lt_of_lt_mul (by omega)
        rw [lastDigits, ← ih hdiv hpos]
        rw [Nat.toDigits_of_base_le (by decide) (not_lt.mp hsmall)]
        unfold padStart
        rw [List.length_append, List.length_singleton, Nat.add_sub_add_right, List.append_assoc]

theorem digitChar_lt_iff : ∀ {m n : ℕ}, m < 10 → n < 10 → (Nat.digitChar m < Nat.digitChar n ↔ m < n) := by
  have hall : ∀ m n : Fin 10, Nat.digitChar m < Nat.digitChar n ↔ (m : ℕ) < n := by decide
  intro m n hm hn
  exact hall ⟨m, hm⟩ ⟨n, hn⟩

theorem lastDigits_lt_iff {width m n : ℕ} (hm : m < 10 ^ width) (hn : n < 10 ^ width) :
    (lastDigits width m < lastDigits width n ↔ m < n) ∧ (lastDigits width m = lastDigits width n ↔ m = n) := by
  induction width generalizing m n with
  | zero =>
      rw [pow_zero, Nat.lt_one_iff] at hm hn
      subst hm hn
      simp
  | succ width ih =>
      rw [pow_succ] at hm hn
      obtain ⟨hlt, heq⟩ := @ih (m / 10) (n / 10) (Nat.div_lt_of_lt_mul (by omega)) (Nat.div_lt_of_lt_mul (by omega))
      have hlength : (lastDigits width (m / 10)).length = (lastDigits width (n / 10)).length := by
        rw [length_lastDigits, length_lastDigits]
      have hdigit := @digitChar_lt_iff (m % 10) (n % 10) (Nat.mod_lt _ (by decide)) (Nat.mod_lt _ (by decide))
      have hdigit' := @digitChar_lt_iff (n % 10) (m % 10) (Nat.mod_lt _ (by decide)) (Nat.mod_lt _ (by decide))
      have hsame : Nat.digitChar (m % 10) = Nat.digitChar (n % 10) ↔ m % 10 = n % 10 := by
        constructor
        · intro h
          rw [h] at hdigit hdigit'
          simp only [lt_irrefl, false_iff] at hdigit hdigit'
          omega
        · exact congrArg _
      unfold lastDigits
      constructor
      · rw [append_lt_append_iff hlength, hlt, heq, List.cons_lt_cons_iff]
        simp only [List.not_lt_nil, and_false, or_false]
        rw [hdigit]
        omega
      · rw [List.append_eq_append_iff_of_size_eq_left hlength, heq, List.cons.injEq, hsame]
        simp only [and_true]
        omega

theorem Arrival.ms_lt (a : Arrival) : a.ms < 10 ^ 16 := by
  have hrange := a.inRange
  unfold ms
  omega

theorem Arrival.name_eq (a : Arrival) :
    a.name = lastDigits 16 a.ms ++ '-' :: (lastDigits 8 a.sequence ++ '-' :: (a.nonce ++ ".json".toList)) := by
  rw [name, testSlotTicketName, padStart_toDigits a.sequence_lt (by decide)]
  exact congrArg (· ++ _) (padStart_toDigits a.ms_lt (by decide))

/-- The names sort in the order of arrival. -/
theorem Arrival.name_lt_iff (a b : Arrival) : a.name < b.name ↔ a.Before b := by
  obtain ⟨hms, hmsEq⟩ := lastDigits_lt_iff a.ms_lt b.ms_lt
  obtain ⟨hseq, hseqEq⟩ := lastDigits_lt_iff a.sequence_lt b.sequence_lt
  rw [a.name_eq, b.name_eq, append_lt_append_iff (by rw [length_lastDigits, length_lastDigits]), hms, hmsEq,
    List.cons_lt_cons_iff, append_lt_append_iff (by rw [length_lastDigits, length_lastDigits]), hseq, hseqEq, List.cons_lt_cons_iff]
  simp only [lt_irrefl, true_and, false_or]
  rfl

theorem mem_readTestSlotQueue {live : Text → Option τ} {names : List Text} {t : QueuedTicket τ} :
    t ∈ readTestSlotQueue live names ↔ t.name ∈ names ∧ isTicketName t.name = true ∧ live t.name = some t.ticket := by
  unfold readTestSlotQueue
  rw [List.mem_filterMap]
  constructor
  · rintro ⟨name, hname, hlive⟩
    obtain ⟨ticket, hticket, rfl⟩ := Option.map_eq_some_iff.mp hlive
    obtain ⟨hmem, hshape⟩ := List.mem_filter.mp (List.mem_mergeSort.mp hname)
    exact ⟨hmem, hshape, hticket⟩
  · rintro ⟨hmem, hshape, hlive⟩
    refine ⟨t.name, List.mem_mergeSort.mpr (List.mem_filter.mpr ⟨hmem, hshape⟩), ?_⟩
    rw [hlive]
    rfl

theorem readTestSlotQueue_sorted (live : Text → Option τ) (names : List Text) :
    (readTestSlotQueue live names).Pairwise fun s t => s.name ≤ t.name := by
  unfold readTestSlotQueue
  refine List.Pairwise.filterMap _ ?_ (sortedLE_mergeSort (names.filter isTicketName))
  intro a b hab s hs t ht
  obtain ⟨_, -, rfl⟩ := Option.map_eq_some_iff.mp hs
  obtain ⟨_, -, rfl⟩ := Option.map_eq_some_iff.mp ht
  exact hab

/-- The tickets ahead of a waiter are the live ones that arrived before it, and they stand in the order of arrival. -/
theorem ahead_iff (live : Text → Option τ) (names : List Text) (own : Arrival) :
    (∀ (a : Arrival) (ticket : τ), ⟨a.name, ticket⟩ ∈ queueAhead live names own.name ↔
        (a.name ∈ names ∧ isTicketName a.name = true ∧ live a.name = some ticket) ∧ a.Before own) ∧
      (queueAhead live names own.name).Pairwise fun s t => ∀ a b : Arrival, s.name = a.name → t.name = b.name → ¬b.Before a := by
  unfold queueAhead
  constructor
  · intro a ticket
    rw [List.mem_filter, mem_readTestSlotQueue, decide_eq_true_eq, Arrival.name_lt_iff]
  · refine ((readTestSlotQueue_sorted live names).filter _).imp ?_
    intro s t hst a b hs ht hbefore
    rw [← Arrival.name_lt_iff, ← hs, ← ht] at hbefore
    exact absurd hst (not_le.mpr hbefore)

/-! ### The history of the holds -/

/-- A released hold.  How long it was is the difference of two readings of the clock, which may have been set back. -/
structure HoldRecord where
  label : Text
  heldMs : ℤ
  concurrency : ℕ
  endedAt : Text
  safe : heldMs.natAbs < 2 ^ 53

/-- The fields of a hold as they are written. -/
def HoldRecord.row (h : HoldRecord) : Row :=
  [("label".toList, .str h.label), ("heldMs".toList, .num (signedDigits h.heldMs)),
    ("concurrency".toList, .num (Nat.toDigits 10 h.concurrency)), ("endedAt".toList, .str h.endedAt)]

def labelOf (row : Row) : Text := (row.str "label").getD []

/-- A hold that is a finite number and not below zero. -/
def heldOf (row : Row) : Option ℚ≥0 :=
  match row.field "heldMs" with
  | some (.num shown) => (number shown).bind fun ms => if h : 0 ≤ ms then some ⟨ms, h⟩ else none
  | _ => none

def isHold (row : Row) : Bool := (row.str "label").isSome && (heldOf row).isSome && (row.str "endedAt").isSome

def readHold (line : Text) : Option Row :=
  if (Text.trim line).isEmpty then none
  else match Json.parse line with
    | some (.obj row) => if isHold row then some row else none
    | _ => none

/-- `none` is a history that was never written. -/
def readHoldHistory : Option Text → List Row
  | none => []
  | some raw => (Text.splitBy (· == '\n') raw).filterMap readHold

def holdRetention (slots : ℕ) : ℕ := 2 * max 1 slots + 1

/-- One turn of the loop of `recordTestSlotHold`, which goes from the newest hold to the oldest. -/
def pruneHold (keep : ℕ) (row : Row) (acc : List Row × Record Text ℕ) : List Row × Record Text ℕ :=
  let n := (acc.2.get? (labelOf row)).getD 0 + 1
  (if n ≤ keep then row :: acc.1 else acc.1, acc.2.set (labelOf row) n)

def historyText (rows : List Row) : Text := Text.join ['\n'] (rows.map fun row => Json.stringify (.obj row)) ++ ['\n']

/-- `recordTestSlotHold` in a queue directory that exists. -/
def recordTestSlotHold (slots : ℕ) (file : Option Text) (hold : HoldRecord) : Option Text :=
  some (historyText (((readHoldHistory file ++ [hold.row]).foldr (pruneHold (holdRetention slots)) ([], ∅)).1))

/-- The history after releases. -/
def recorded (slots : ℕ) (holds : List HoldRecord) : Option Text := holds.foldl (recordTestSlotHold slots) none

theorem foldr_pruneHold (keep : ℕ) (rows : List Row) :
    (rows.foldr (pruneHold keep) ([], ∅)).1 = keepNewest labelOf keep rows ∧
      ∀ label, ((rows.foldr (pruneHold keep) ([], ∅)).2.get? label).getD 0 = rows.countP fun r => labelOf r = label := by
  induction rows with
  | nil => exact ⟨rfl, fun _ => rfl⟩
  | cons row rows ih =>
      obtain ⟨hkept, hcount⟩ := ih
      rw [List.foldr_cons]
      generalize rows.foldr (pruneHold keep) ([], ∅) = acc at hkept hcount
      unfold pruneHold
      dsimp only
      constructor
      · rw [hcount, hkept, keepNewest]
        rfl
      · intro label
        rw [List.countP_cons]
        by_cases hlabel : label = labelOf row
        · rw [hlabel, Record.get?_set_self, hcount]
          simp
        · rw [Record.get?_set_of_ne _ _ hlabel, hcount, if_neg (by simpa using Ne.symm hlabel), Nat.add_zero]

theorem newline_not_mem_escape (c : Char) : '\n' ∉ Json.escape c := by
  have hhex : ∀ k < 16, '\n' ≠ Json.hexDigit k := by decide
  intro hmem
  unfold Json.escape at hmem
  split_ifs at hmem with _ _ hnewline _ _ _ _ hlow
  all_goals simp only [List.mem_cons, Char.reduceEq, List.not_mem_nil, or_false, false_or] at hmem
  · obtain hmem | hmem := hmem
    · exact hhex _ (by omega) hmem
    · exact hhex _ (by omega) hmem
  · exact hnewline hmem.symm

theorem newline_not_mem_quote (t : Text) : '\n' ∉ Json.quote t := by
  unfold Json.quote
  simp only [List.cons_append, List.mem_cons, List.mem_append, List.mem_flatMap, List.not_mem_nil, or_false]
  rintro (h | ⟨c, -, hc⟩ | h)
  · exact absurd h (by decide)
  · exact newline_not_mem_escape c hc
  · exact absurd h (by decide)

theorem newline_not_mem_toDigits (n : ℕ) : '\n' ∉ Nat.toDigits 10 n := by
  intro hmem
  have hdigit := Nat.isDigit_of_mem_toDigits (by decide) (by decide) hmem
  exact absurd hdigit (by decide)

theorem newline_not_mem_signedDigits (n : ℤ) : '\n' ∉ signedDigits n := by
  unfold signedDigits
  split
  · simp [newline_not_mem_toDigits]
  · exact newline_not_mem_toDigits _

theorem stringify_row (h : HoldRecord) : Json.stringify (.obj h.row) =
    '\x7b' :: (Json.quote "label".toList ++ ':' :: Json.quote h.label ++ ',' ::
      (Json.quote "heldMs".toList ++ ':' :: signedDigits h.heldMs ++ ',' ::
      (Json.quote "concurrency".toList ++ ':' :: Nat.toDigits 10 h.concurrency ++ ',' ::
      (Json.quote "endedAt".toList ++ ':' :: Json.quote h.endedAt)))) ++ ['\x7d'] := by
  simp [HoldRecord.row, Json.stringify, Json.stringifyFields, Json.commas]

theorem newline_not_mem_stringify (h : HoldRecord) : '\n' ∉ Json.stringify (.obj h.row) := by
  rw [stringify_row]
  simp only [List.cons_append, List.mem_cons, List.mem_append, newline_not_mem_quote, newline_not_mem_toDigits,
    newline_not_mem_signedDigits, false_or, or_false]
  decide

/-- A hold is measured unless it is negative. -/
def HoldRecord.measured (h : HoldRecord) : Bool := decide (0 ≤ h.heldMs)

theorem heldOf_row (h : HoldRecord) : heldOf h.row = if h.measured then some (h.heldMs.toNat : ℚ≥0) else none := by
  have hfield : h.row.field "heldMs" = some (.num (signedDigits h.heldMs)) := rfl
  unfold heldOf HoldRecord.measured
  rw [hfield]
  dsimp only
  rw [number_signedDigits h.safe, Option.bind_some]
  by_cases hsign : 0 ≤ h.heldMs
  · have hcast : (0 : ℚ) ≤ (h.heldMs : ℚ) := Int.cast_nonneg hsign
    rw [dif_pos hcast, if_pos (decide_eq_true hsign)]
    refine congrArg some (NNRat.ext ?_)
    rw [NNRat.coe_natCast, ← Int.cast_natCast, Int.toNat_of_nonneg hsign]
    rfl
  · have hcast : ¬(0 : ℚ) ≤ (h.heldMs : ℚ) := by exact_mod_cast hsign
    rw [dif_neg hcast, if_neg (by simpa using hsign)]

theorem readable_row (h : HoldRecord) : Json.Readable (.obj h.row) := by
  have hnames : ["label".toList, "heldMs".toList, "concurrency".toList, "endedAt".toList].Nodup := by decide
  refine ⟨hnames, Json.readableFields_iff.mpr fun f hf => ?_⟩
  simp only [HoldRecord.row, List.mem_cons, List.not_mem_nil, or_false] at hf
  obtain rfl | rfl | rfl | rfl := hf
  · exact trivial
  · exact Json.readable_signedDigits _
  · exact Json.readable_toDigits _
  · exact trivial

/-- A hold is read as it was written, if it is measured. -/
theorem readHold_stringify (h : HoldRecord) :
    readHold (Json.stringify (.obj h.row)) = if h.measured then some h.row else none := by
  have htrim : Text.trim (Json.stringify (.obj h.row)) = Json.stringify (.obj h.row) := by
    rw [stringify_row, Text.trim_eq_self_iff]
    constructor
    · intro c hc
      obtain rfl := Option.some.inj hc
      rfl
    · intro c hc
      rw [List.getLast?_concat] at hc
      obtain rfl := Option.some.inj hc
      rfl
  have hne : (Json.stringify (.obj h.row)).isEmpty = false := by
    rw [stringify_row]
    rfl
  have hhold : isHold h.row = h.measured := by
    unfold isHold
    rw [heldOf_row]
    cases h.measured with
    | false => rfl
    | true => rfl
  unfold readHold
  rw [htrim, hne, Json.parse_stringify (readable_row h)]
  dsimp only
  rw [hhold]
  rfl

theorem readHoldHistory_historyText (holds : List HoldRecord) :
    readHoldHistory (some (historyText (holds.map HoldRecord.row))) = (holds.filter HoldRecord.measured).map HoldRecord.row := by
  unfold readHoldHistory historyText
  rw [List.map_map]
  cases holds with
  | nil => rfl
  | cons h holds =>
      have hlines : ∀ line ∈ (h :: holds).map ((fun row => Json.stringify (.obj row)) ∘ HoldRecord.row),
          ∀ c ∈ line, (c == '\n') = false := by
        intro line hline c hc
        obtain ⟨h', -, rfl⟩ := List.mem_map.mp hline
        refine beq_eq_false_iff_ne.mpr fun heq => ?_
        rw [heq] at hc
        exact newline_not_mem_stringify h' hc
      show (Text.splitBy (· == '\n') (_ ++ '\n' :: [])).filterMap readHold = _
      rw [Text.splitBy_append_cons_sep (by rfl), Text.splitBy_join (by rfl) (by simp) hlines, List.filterMap_append,
        List.filterMap_map]
      have hread : (readHold ∘ ((fun row => Json.stringify (.obj row)) ∘ HoldRecord.row)) =
          fun h => if h.measured then some h.row else none := funext fun h' => readHold_stringify h'
      have hblank : (Text.splitBy (· == '\n') []).filterMap readHold = [] := rfl
      rw [hread, hblank, List.append_nil, ← List.filterMap_eq_map', List.filterMap_filter]

theorem keepNewest_map_row (keep : ℕ) (holds : List HoldRecord) :
    keepNewest labelOf keep (holds.map HoldRecord.row) = (keepNewest HoldRecord.label keep holds).map HoldRecord.row := by
  induction holds with
  | nil => rfl
  | cons h holds ih =>
      have hcount : (holds.map HoldRecord.row).countP (fun r => labelOf r = labelOf h.row) =
          holds.countP fun r => r.label = h.label := by
        rw [List.countP_map]
        rfl
      rw [List.map_cons, keepNewest, keepNewest, hcount, ih]
      split <;> rfl

/-- The holds that are read back after releases. -/
def measuredHolds (slots : ℕ) (holds : List HoldRecord) : List HoldRecord :=
  holds.foldl (fun kept hold => (keepNewest HoldRecord.label (holdRetention slots) (kept ++ [hold])).filter HoldRecord.measured) []

theorem measuredHolds_concat (slots : ℕ) (holds : List HoldRecord) (hold : HoldRecord) :
    measuredHolds slots (holds ++ [hold]) =
      (keepNewest HoldRecord.label (holdRetention slots) (measuredHolds slots holds ++ [hold])).filter HoldRecord.measured := by
  rw [measuredHolds, List.foldl_append]
  rfl

theorem readHoldHistory_recorded (slots : ℕ) (holds : List HoldRecord) :
    readHoldHistory (recorded slots holds) = (measuredHolds slots holds).map HoldRecord.row := by
  induction holds using List.reverseRecOn with
  | nil => rfl
  | append_singleton holds hold ih =>
      have hstep : recorded slots (holds ++ [hold]) = recordTestSlotHold slots (recorded slots holds) hold := by
        rw [recorded, List.foldl_append]
        rfl
      rw [hstep, recordTestSlotHold, ih, (foldr_pruneHold _ _).1, ← List.map_singleton, ← List.map_append, keepNewest_map_row,
        readHoldHistory_historyText, measuredHolds_concat]

theorem measuredHolds_sublist (slots : ℕ) (holds : List HoldRecord) :
    (measuredHolds slots holds).Sublist (holds.filter HoldRecord.measured) := by
  induction holds using List.reverseRecOn with
  | nil => exact List.Sublist.refl _
  | append_singleton holds hold ih =>
      have hkept : (measuredHolds slots holds ++ [hold]).Sublist (holds ++ [hold]) :=
        (ih.trans List.filter_sublist).append_right [hold]
      rw [measuredHolds_concat]
      exact ((keepNewest_sublist _).trans hkept).filter _

/-- Of a label whose holds are all measured, the newest ones are read back. -/
theorem filter_measuredHolds (slots : ℕ) {holds : List HoldRecord} {label : Text}
    (h : ∀ x ∈ holds, x.label = label → 0 ≤ x.heldMs) :
    (measuredHolds slots holds).filter (fun x => x.label = label) =
      (holds.filter fun x => x.label = label).rtake (holdRetention slots) := by
  induction holds using List.reverseRecOn with
  | nil => exact (List.rtake_nil _).symm
  | append_singleton holds hold ih =>
      have hearlier := ih fun x hx => h x (List.mem_append_left _ hx)
      have hall : ∀ x ∈ ((holds ++ [hold]).filter fun x => x.label = label).rtake (holdRetention slots), x.measured = true := by
        intro x hx
        obtain ⟨hmem, hlabel⟩ := List.mem_filter.mp (List.mem_of_mem_drop hx)
        exact decide_eq_true (h x hmem (of_decide_eq_true hlabel))
      rw [measuredHolds_concat, List.filter_filter, List.filter_congr (fun x _ => Bool.and_comm _ _), ← List.filter_filter,
        filter_keepNewest, List.filter_append, hearlier, rtake_rtake_append, ← List.filter_append]
      exact List.filter_eq_self.mpr hall

/-- After any releases the history has measured holds that were released and nothing else; and of every label without a
negative hold it has exactly the newest ones, in the order of their release. -/
theorem history_newest (slots : ℕ) (holds : List HoldRecord) :
    (∃ kept : List HoldRecord, kept.Sublist (holds.filter fun h => 0 ≤ h.heldMs) ∧
        readHoldHistory (recorded slots holds) = kept.map HoldRecord.row) ∧
      ∀ label, (∀ h ∈ holds, h.label = label → 0 ≤ h.heldMs) →
        ((readHoldHistory (recorded slots holds)).filter fun r => labelOf r = label) =
          ((holds.filter fun h => h.label = label).rtake (holdRetention slots)).map HoldRecord.row := by
  refine ⟨⟨_, measuredHolds_sublist slots holds, readHoldHistory_recorded slots holds⟩, fun label hlabel => ?_⟩
  have hrow : ((fun r => decide (labelOf r = label)) ∘ HoldRecord.row) = fun h => decide (h.label = label) := rfl
  rw [readHoldHistory_recorded, List.filter_map, hrow, filter_measuredHolds slots hlabel]

/-- Five holds of a suite on one slot, and one of another suite during which the clock was set back. -/
def clockSetBack : List HoldRecord :=
  [⟨"unit".toList, 10, 1, "2026-10-16T00:00:00.000Z".toList, by decide⟩,
    ⟨"unit".toList, 0, 1, "2026-10-16T00:01:00.000Z".toList, by decide⟩,
    ⟨"e2e".toList, -5, 1, "2026-10-16T00:00:30.000Z".toList, by decide⟩,
    ⟨"unit".toList, 520, 1, "2026-10-16T00:02:00.000Z".toList, by decide⟩,
    ⟨"unit".toList, 500, 1, "2026-10-16T00:03:00.000Z".toList, by decide⟩,
    ⟨"unit".toList, 510, 1, "2026-10-16T00:04:00.000Z".toList, by decide⟩]

theorem history_clockSetBack :
    (∀ h ∈ clockSetBack, h.label = "unit".toList → 0 ≤ h.heldMs) ∧
      ((readHoldHistory (recorded 1 clockSetBack)).filter fun r => labelOf r = "unit".toList) =
        (clockSetBack.drop 3).map HoldRecord.row := by
  have hunit : ∀ h ∈ clockSetBack, h.label = "unit".toList → 0 ≤ h.heldMs := by decide
  exact ⟨hunit, (history_newest 1 clockSetBack).2 _ hunit⟩

/-! ### The median hold -/

/-- The median of the holds of a label, and how many there are. -/
def medianHold (history : List Row) (label : Text) : Option (ℚ≥0 × ℕ) :=
  let held := (history.filter fun r => labelOf r = label).filterMap heldOf
  (middle held).map fun ms => (ms, held.length)

/-- The holds of a label that the history has. -/
theorem held_history (slots : ℕ) {holds : List HoldRecord} {label : Text}
    (h : ∀ x ∈ holds, x.label = label → 0 ≤ x.heldMs) :
    ((readHoldHistory (recorded slots holds)).filter fun r => labelOf r = label).filterMap heldOf =
      ((holds.filter fun h => h.label = label).rtake (holdRetention slots)).map fun h => (h.heldMs.toNat : ℚ≥0) := by
  have hrow : ((fun r => decide (labelOf r = label)) ∘ HoldRecord.row) = fun h => decide (h.label = label) := rfl
  rw [readHoldHistory_recorded, List.filter_map, hrow, filter_measuredHolds slots h, List.filterMap_map, ← List.filterMap_eq_map']
  refine List.filterMap_congr fun x hx => ?_
  obtain ⟨hmem, hlabel⟩ := List.mem_filter.mp (List.mem_of_mem_drop hx)
  exact (heldOf_row x).trans (if_pos (decide_eq_true (h x hmem (of_decide_eq_true hlabel))))

/-- The median hold of a label without a negative hold lies between two of its newest `slots + 1` holds, however long the
older ones were. -/
theorem median_between (slots : ℕ) (holds : List HoldRecord) (label : Text) (h : ∃ x ∈ holds, x.label = label)
    (hsign : ∀ x ∈ holds, x.label = label → 0 ≤ x.heldMs) :
    ∃ ms : ℚ≥0, medianHold (readHoldHistory (recorded slots holds)) label =
        some (ms, min (holds.filter fun x => x.label = label).length (holdRetention slots)) ∧
      (∃ x ∈ (holds.filter fun x => x.label = label).rtake (max 1 slots + 1), (x.heldMs : ℚ) ≤ ms) ∧
      ∃ x ∈ (holds.filter fun x => x.label = label).rtake (max 1 slots + 1), (ms : ℚ) ≤ x.heldMs := by
  unfold medianHold
  dsimp only
  rw [held_history slots hsign]
  have hpos : 0 < (holds.filter fun x => x.label = label).length := by
    obtain ⟨x, hx, hlabel⟩ := h
    exact List.length_pos_of_mem (List.mem_filter.mpr ⟨hx, decide_eq_true hlabel⟩)
  have hmine : ∀ x ∈ holds.filter fun x => x.label = label, ((x.heldMs.toNat : ℚ≥0) : ℚ) = x.heldMs := by
    intro x hx
    obtain ⟨hmem, hlabel⟩ := List.mem_filter.mp hx
    rw [NNRat.coe_natCast, ← Int.cast_natCast, Int.toNat_of_nonneg (hsign x hmem (of_decide_eq_true hlabel))]
  generalize (holds.filter fun x => decide (x.label = label)) = mine at hpos hmine
  -- the kept holds are some older ones and the newest `slots + 1`, which are more
  obtain ⟨older, hsplit, holder⟩ : ∃ older, mine.rtake (holdRetention slots) = older ++ mine.rtake (max 1 slots + 1) ∧
      older.length < (mine.rtake (max 1 slots + 1)).length := by
    unfold holdRetention List.rtake
    let first := mine.length - (2 * max 1 slots + 1)
    refine ⟨(mine.drop first).take (mine.length - (max 1 slots + 1) - first), ?_, ?_⟩
    · have hdrop : mine.drop (mine.length - (max 1 slots + 1)) = (mine.drop first).drop (mine.length - (max 1 slots + 1) - first) := by
        rw [List.drop_drop]
        congr 1
        omega
      rw [hdrop, List.take_append_drop]
    · rw [List.length_take, List.length_drop, List.length_drop]
      omega
  have hmiddle := @middle_between ℚ≥0 _ (older.map fun x => (x.heldMs.toNat : ℚ≥0))
    ((mine.rtake (max 1 slots + 1)).map fun x => (x.heldMs.toNat : ℚ≥0)) (by rwa [List.length_map, List.length_map])
  rw [← List.map_append, ← hsplit] at hmiddle
  obtain ⟨ms, hms, ⟨low, hlow, hle⟩, high, hhigh, hge⟩ := hmiddle
  obtain ⟨x, hx, rfl⟩ := List.mem_map.mp hlow
  obtain ⟨y, hy, rfl⟩ := List.mem_map.mp hhigh
  refine ⟨ms, ?_, ⟨x, hx, ?_⟩, y, hy, ?_⟩
  · rw [hms, Option.map_some, List.length_map]
    unfold List.rtake
    rw [List.length_drop]
    congr 2
    omega
  · rw [← hmine x (List.mem_of_mem_drop hx)]
    exact NNRat.coe_le_coe.mpr hle
  · rw [← hmine y (List.mem_of_mem_drop hy)]
    exact NNRat.coe_le_coe.mpr hge

/-- The suite got slower, so its median is that of the slow holds. -/
theorem median_clockSetBack :
    (∃ h ∈ clockSetBack, h.label = "unit".toList) ∧ (∀ h ∈ clockSetBack, h.label = "unit".toList → 0 ≤ h.heldMs) ∧
      ∃ ms : ℚ≥0, medianHold (readHoldHistory (recorded 1 clockSetBack)) "unit".toList = some (ms, 3) ∧
        (500 : ℚ) ≤ ms ∧ (ms : ℚ) ≤ 510 := by
  have hsome : ∃ h ∈ clockSetBack, h.label = "unit".toList := ⟨_, List.mem_cons_self, rfl⟩
  have hunit : ∀ h ∈ clockSetBack, h.label = "unit".toList → 0 ≤ h.heldMs := by decide
  obtain ⟨ms, hmedian, ⟨x, hx, hlow⟩, y, hy, hhigh⟩ := median_between 1 clockSetBack "unit".toList hsome hunit
  have hrecent : (clockSetBack.filter fun h => h.label = "unit".toList).rtake (max 1 1 + 1) = clockSetBack.drop 4 := rfl
  rw [hrecent] at hx hy
  have hbounds : ∀ h ∈ clockSetBack.drop 4, 500 ≤ h.heldMs ∧ h.heldMs ≤ 510 := by decide
  refine ⟨hsome, hunit, ms, hmedian, le_trans ?_ hlow, le_trans hhigh ?_⟩
  · exact_mod_cast (hbounds x hx).1
  · exact_mod_cast (hbounds y hy).2

/-! ### The estimate of a waiter -/

structure QueueHolderView where
  slot : ℕ
  label : Option Text
  pid : Option ℕ
  elapsedMs : Option ℚ

structure QueueEta where
  etaMs : Option ℚ≥0
  basis : Text

/-- What is measured of a label, or why nothing is. -/
def estimate (history : List Row) : Option Text → Except Text (Text × ℚ≥0 × ℕ)
  | none => .error "ETA unknown: a holder's record names no label".toList
  | some label =>
      match medianHold history label with
      | none => .error ("ETA unknown: no measured holds of ".toList ++ label)
      | some (ms, count) => .ok (label, ms, count)

def estimateHolder (history : List Row) (h : QueueHolderView) : Except Text ((Text × ℚ≥0 × ℕ) × ℚ≥0) :=
  (estimate history h.label).map fun e => (e, (e.2.1 - h.elapsedMs.getD 0 : ℚ).toNNRat)

/-- The labels that were used, each once. -/
def basisOf (used : List (Text × ℚ≥0 × ℕ)) : Text :=
  let counts := (used.foldl (fun (r : Record Text ℕ) e => r.set e.1 e.2.2) ∅).entries
  let basis := Text.join ", ".toList (counts.map fun e =>
    Nat.toDigits 10 e.2 ++ " measured ".toList ++ e.1 ++ " hold".toList ++ (if e.2 = 1 then [] else "s".toList))
  if basis.isEmpty then "a slot is open now".toList else "median of ".toList ++ basis

def estimateQueueEta (slots : ℕ) (holders : List QueueHolderView) (ahead : List Text) (history : List Row) : QueueEta :=
  match holders.mapM (estimateHolder history) with
  | .error basis => ⟨none, basis⟩
  | .ok held =>
      match ahead.mapM fun label => estimate history (some label) with
      | .error basis => ⟨none, basis⟩
      | .ok line =>
          let free := held.map Prod.snd
          let free := free ++ List.replicate (max 1 slots - free.length) 0
          let free := (line.map fun e => e.2.1).foldl raiseLeast free
          ⟨some (least free), basisOf (held.map Prod.fst ++ line)⟩

/-- A label that has a measured hold, and its median. -/
def Measured (history : List Row) (label : Option Text) (ms : ℚ≥0) : Prop :=
  ∃ name count, label = some name ∧ medianHold history name = some (ms, count)

theorem mapM_ok_or_error {ε α β : Type} (f : α → Except ε β) (l : List α) :
    (∃ bs, l.mapM f = .ok bs ∧ List.Forall₂ (fun a b => f a = .ok b) l bs) ∨
      ∃ a ∈ l, ∃ err, f a = .error err ∧ l.mapM f = .error err := by
  induction l with
  | nil => exact .inl ⟨[], rfl, .nil⟩
  | cons a l ih =>
      rw [List.mapM_cons]
      cases ha : f a with
      | error err => exact .inr ⟨a, List.mem_cons_self, err, ha, rfl⟩
      | ok b =>
          obtain ⟨bs, hbs, hall⟩ | ⟨a', ha', err, herr, hmap⟩ := ih
          · rw [hbs]
            exact .inl ⟨b :: bs, rfl, .cons ha hall⟩
          · rw [hmap]
            exact .inr ⟨a', List.mem_cons_of_mem a ha', err, herr, rfl⟩

theorem measured_of_estimate {history : List Row} {label : Option Text} {e : Text × ℚ≥0 × ℕ}
    (h : estimate history label = .ok e) : Measured history label e.2.1 := by
  cases label with
  | none => cases h
  | some name =>
      cases hmedian : medianHold history name with
      | none =>
          rw [estimate, hmedian] at h
          cases h
      | some m =>
          rw [estimate, hmedian] at h
          obtain rfl := Except.ok.inj h
          exact ⟨name, m.2, rfl, hmedian⟩

theorem not_measured_of_estimate {history : List Row} {label : Option Text} {reason : Text}
    (h : estimate history label = .error reason) (ms : ℚ≥0) : ¬Measured history label ms := by
  rintro ⟨name, count, rfl, hmedian⟩
  rw [estimate, hmedian] at h
  cases h

/-- What the estimate of a waiter is: the first time at which a slot is free for it when everyone before it is served in
order and needs the median hold of its label, or nothing while some label before it has no measured hold. -/
theorem eta_earliest (slots : ℕ) (holders : List QueueHolderView) (ahead : List Text) (history : List Row) :
    (((∃ h ∈ holders, ∀ ms, ¬Measured history h.label ms) ∨ ∃ label ∈ ahead, ∀ ms, ¬Measured history (some label) ms) ∧
        (estimateQueueEta slots holders ahead history).etaMs = none) ∨
      ∃ eta rest durations after, (estimateQueueEta slots holders ahead history).etaMs = some eta ∧
        List.Forall₂ (fun h r => ∃ ms, Measured history h.label ms ∧ r = ((ms : ℚ) - h.elapsedMs.getD 0).toNNRat) holders rest ∧
        List.Forall₂ (fun label ms => Measured history (some label) ms) ahead durations ∧
        Served (max (max 1 slots) holders.length) rest durations after ∧
        Earliest (max (max 1 slots) holders.length) after eta := by
  unfold estimateQueueEta
  obtain ⟨held, hheld, hholders⟩ | ⟨h, hh, reason, herror, hmap⟩ := mapM_ok_or_error (estimateHolder history) holders
  · rw [hheld]
    dsimp only
    obtain ⟨line, hline, hahead⟩ | ⟨label, hlabel, reason, herror, hmap⟩ :=
      mapM_ok_or_error (fun label => estimate history (some label)) ahead
    · rw [hline]
      dsimp only
      have hlength : held.length = holders.length := hholders.length_eq.symm
      have hrepresents := represents_replicate (held.map Prod.snd) (max 1 slots - (held.map Prod.snd).length)
      have hservers : (held.map Prod.snd).length + (max 1 slots - (held.map Prod.snd).length) =
          max (max 1 slots) holders.length := by
        rw [List.length_map, hlength]
        omega
      rw [hservers] at hrepresents
      obtain ⟨after, hserved, hearliest⟩ := hrepresents.served (by omega) (line.map fun e => e.2.1)
      refine .inr ⟨_, held.map Prod.snd, line.map fun e => e.2.1, after, rfl, ?_, ?_, hserved, hearliest⟩
      · rw [List.forall₂_map_right_iff]
        refine hholders.imp fun h e he => ?_
        obtain ⟨m, hm, rfl⟩ : ∃ m, estimate history h.label = .ok m ∧ (m, ((m.2.1 : ℚ) - h.elapsedMs.getD 0).toNNRat) = e := by
          unfold estimateHolder at he
          cases hm : estimate history h.label with
          | error reason =>
              rw [hm] at he
              cases he
          | ok m =>
              rw [hm] at he
              exact ⟨m, rfl, Except.ok.inj he⟩
        exact ⟨m.2.1, measured_of_estimate hm, rfl⟩
      · rw [List.forall₂_map_right_iff]
        exact hahead.imp fun label e he => measured_of_estimate he
    · rw [hmap]
      exact .inl ⟨.inr ⟨label, hlabel, not_measured_of_estimate herror⟩, rfl⟩
  · rw [hmap]
    refine .inl ⟨.inl ⟨h, hh, ?_⟩, rfl⟩
    unfold estimateHolder at herror
    cases hm : estimate history h.label with
    | ok m =>
        rw [hm] at herror
        cases herror
    | error reason' => exact not_measured_of_estimate hm

end Remudero.TestSlot.Queue
