import Remudero.Lib.Number
import Remudero.Lib.Record
import Remudero.Lib.Text

/-! # The durable credit store

`recordCredit`, `recordCorrectionCredit`, `invalidateDurableCredit` and `durableDependencyCredit` of
`lib/status.ts`.  A task's record has one slot for each way a merged pull request credits it, and
the marks that take the credit of a pull request away.  The first mark of a source stands under the
source's name, a later one under the url of its pull request.

A store maps a task id to its record; an absent `invalidated` is the empty one.  The receipts of the
backfill writer are left out: none of these functions reads them.

Marks are compared by the text of the url when an entry is recorded, and by number as well when the
credit is read.  `Quarantine.lean` says what that keeps over every sequence of calls. -/

namespace Remudero.Credit

open Remudero.Lib

/-! ### Pull requests -/

/-- `[A-Za-z0-9_.-]`. -/
def nameChar (c : Char) : Bool := c.isAlphanum || c == '_' || c == '.' || c == '-'

/-- The groups of `^https://github.com/(name/name)/pull/([1-9][0-9]*)$`. -/
def matchPrUrl (prUrl : Text) : Option (Text × Text) :=
  let host := "https://github.com/".toList
  let rest := prUrl.drop host.length
  let owner := rest.takeWhile nameChar
  let name := ((rest.drop owner.length).drop 1).takeWhile nameChar
  let pull := "/pull/".toList
  let tail := (rest.drop (owner.length + 1)).drop name.length
  let digits := tail.drop pull.length
  if host.isPrefixOf prUrl && !owner.isEmpty && (rest.drop owner.length).head? == some '/' && !name.isEmpty &&
      pull.isPrefixOf tail && digits.all Char.isDigit && digits.head?.any (· != '0') then
    some (owner ++ '/' :: name, digits)
  else none

/-- Why a pair of a number and a url does not name a pull request of the repository. -/
def creditPrProblem (prNumber : ℤ) (prUrl repository : Text) : Option Text :=
  if prNumber ≤ 0 ∨ Number.maxSafeInteger < prNumber then some "malformed PR number".toList
  else match matchPrUrl prUrl with
    | none => some "invalid canonical GitHub PR URL: scheme, host, userinfo, query, hash or path suffix".toList
    | some (name, digits) =>
        if Text.lower name ≠ Text.lower repository then some "credit repository mismatch".toList
        else if (Nat.ofDigitChars 10 digits 0 : ℤ) ≠ prNumber then some "PR number and URL mismatch".toList
        else none

/-- A url names one pull request. -/
theorem prNumber_unique {m n : ℤ} {prUrl repository : Text} (hm : creditPrProblem m prUrl repository = none)
    (hn : creditPrProblem n prUrl repository = none) : m = n := by
  have hvalue : ∀ k, creditPrProblem k prUrl repository = none →
      ∃ name digits, matchPrUrl prUrl = some (name, digits) ∧ (Nat.ofDigitChars 10 digits 0 : ℤ) = k := by
    intro k hk
    unfold creditPrProblem at hk
    split at hk
    · cases hk
    · split at hk
      · cases hk
      · next name digits hurl =>
          split at hk
          · cases hk
          · split at hk
            · cases hk
            · next hnumber => exact ⟨name, digits, hurl, not_not.mp hnumber⟩
  obtain ⟨name, digits, hurl, hm⟩ := hvalue m hm
  obtain ⟨name', digits', hurl', hn⟩ := hvalue n hn
  rw [hurl, Option.some.injEq, Prod.mk.injEq] at hurl'
  rw [← hm, ← hn, hurl'.2]

/-! ### Records -/

inductive CreditSource where
  | trailer | headBranch
deriving DecidableEq, Repr

def CreditSource.key : CreditSource → Text
  | .trailer => "trailer".toList
  | .headBranch => "head-branch".toList

structure CreditStoreEntry where
  source : CreditSource
  prUrl : Text
  prNumber : ℤ
  prState : Text
deriving DecidableEq, Repr

structure DurableCreditInvalidation where
  prUrl : Text
  prNumber : ℤ
  reason : Text
deriving DecidableEq, Repr

structure CreditStoreTaskRecord where
  trailer : Option CreditStoreEntry := none
  headBranch : Option CreditStoreEntry := none
  invalidated : Record Text DurableCreditInvalidation := ∅
  correction : Option (Text × Option ℕ) := none

abbrev CreditStore := Text → Option CreditStoreTaskRecord

namespace CreditStoreTaskRecord

variable (record : CreditStoreTaskRecord)

def slot : CreditSource → Option CreditStoreEntry
  | .trailer => record.trailer
  | .headBranch => record.headBranch

def setSlot (entry : CreditStoreEntry) : CreditStoreTaskRecord :=
  match entry.source with
  | .trailer => { record with trailer := some entry }
  | .headBranch => { record with headBranch := some entry }

/-- The urls of the marks. -/
def quarantinedCreditUrls : List Text := record.invalidated.values.map (·.prUrl)

def quarantinedNumbers : List ℤ := record.invalidated.values.map (·.prNumber)

@[simp] theorem slot_setSlot_self (entry : CreditStoreEntry) : (record.setSlot entry).slot entry.source = some entry := by
  unfold setSlot
  cases entry.source <;> rfl

theorem slot_setSlot_of_ne {entry : CreditStoreEntry} {source : CreditSource} (h : source ≠ entry.source) :
    (record.setSlot entry).slot source = record.slot source := by
  unfold setSlot
  cases hs : entry.source <;> cases source <;> simp_all [slot]

@[simp] theorem invalidated_setSlot (entry : CreditStoreEntry) :
    (record.setSlot entry).invalidated = record.invalidated := by
  unfold setSlot
  cases entry.source <;> rfl

end CreditStoreTaskRecord

/-! ### Reading the credit of a task -/

structure CreditOverrideRow where
  task : Text
  pr : ℤ
  reason : Text
deriving DecidableEq, Repr

def creditOverrideFor (rows : List CreditOverrideRow) (taskId : Text) (prNumber : ℤ) : Option CreditOverrideRow :=
  rows.find? fun r => r.task == taskId && r.pr == prNumber

inductive DependencyMergeEvidence where
  | merged
  | unknown (reason : Text)
deriving DecidableEq, Repr

/-- A mark that is not one of a pull request of the repository, under a key it may have. -/
def malformedMark (repository key : Text) (mark : DurableCreditInvalidation) : Bool :=
  (creditPrProblem mark.prNumber mark.prUrl repository).isSome || (Text.trim mark.reason).isEmpty ||
    (key != "trailer".toList && key != "head-branch".toList && key != mark.prUrl)

section read

variable (taskId repository : Text) (overrides : List CreditOverrideRow) (record : CreditStoreTaskRecord)

/-- Why the entry of a slot does not count. -/
def entryRefusal (source : CreditSource) (entry : CreditStoreEntry) : Option Text :=
  if entry.source ≠ source then some "malformed credit entry or invalid source slot".toList
  else if entry.prState ≠ "MERGED".toList then some "invalid non-MERGED PR state".toList
  else match creditPrProblem entry.prNumber entry.prUrl repository with
    | some problem => some problem
    | none =>
        if entry.prUrl ∈ record.quarantinedCreditUrls ∨ entry.prNumber ∈ record.quarantinedNumbers then
          some "credit quarantined/invalidated as plan-only".toList
        else if (creditOverrideFor overrides taskId entry.prNumber).isSome then
          some "credit removed by subtract-only override".toList
        else none

/-- The loop over the slots: the entry that counts, or why none does. -/
def scanSlots : List CreditSource → List Text → Except Text CreditStoreEntry
  | [], reasons =>
      let joined := Text.join "; ".toList reasons
      .error (if joined.isEmpty then "native dependency credit absent".toList else joined)
  | source :: sources, reasons =>
      match record.slot source with
      | none => scanSlots sources reasons
      | some entry =>
          match entryRefusal taskId repository overrides record source entry with
          | some reason => scanSlots sources (reasons ++ [reason])
          | none => .ok entry

end read

/-- The entry on whose strength `durableDependencyCredit` answers `merged`. -/
def creditedEntry (store : CreditStore) (taskId repository : Text) (overrides : List CreditOverrideRow) :
    Except Text CreditStoreEntry :=
  match store taskId with
  | none => .error "native dependency credit absent".toList
  | some record =>
      if record.invalidated.entries.any fun e => malformedMark repository e.1 e.2 then
        .error "malformed credit invalidation/quarantine metadata".toList
      else scanSlots taskId repository overrides record [.trailer, .headBranch] []

def durableDependencyCredit (store : CreditStore) (taskId repository : Text) (overrides : List CreditOverrideRow) :
    DependencyMergeEvidence :=
  match creditedEntry store taskId repository overrides with
  | .ok _ => .merged
  | .error reason => .unknown reason

/-! ### Writing -/

def recordCredit (store : CreditStore) (taskId : Text) (entry : CreditStoreEntry) : CreditStore :=
  let existing := (store taskId).getD {}
  let quarantined := existing.quarantinedCreditUrls
  let occupied := (existing.slot entry.source).any fun current => !quarantined.contains current.prUrl
  if quarantined.contains entry.prUrl || occupied then store
  else Function.update store taskId (some (existing.setSlot entry))

/-- The number a text ends in.  Nothing here reads it. -/
def prNumberFromRef (ref : Text) : Option ℕ :=
  let digits := (ref.reverse.takeWhile Char.isDigit).reverse
  if digits.isEmpty then none else some (Nat.ofDigitChars 10 digits 0)

def recordCorrectionCredit (store : CreditStore) (taskId prUrl : Text) : CreditStore :=
  let existing := (store taskId).getD {}
  if existing.correction.any fun c => c.1 == prUrl then store
  else Function.update store taskId (some { existing with correction := some (prUrl, prNumberFromRef prUrl) })

def invalidateDurableCredit (store : CreditStore) (taskId : Text) (source : CreditSource)
    (invalidation : DurableCreditInvalidation) : CreditStore :=
  let existing := (store taskId).getD {}
  if existing.quarantinedCreditUrls.contains invalidation.prUrl then store
  else
    let key := if (existing.invalidated.get? source.key).isSome then invalidation.prUrl else source.key
    Function.update store taskId (some { existing with invalidated := existing.invalidated.set key invalidation })

inductive CreditCall where
  | recordCredit (taskId : Text) (entry : CreditStoreEntry)
  | recordCorrectionCredit (taskId prUrl : Text)
  | invalidateDurableCredit (taskId : Text) (source : CreditSource) (invalidation : DurableCreditInvalidation)

def CreditCall.apply (store : CreditStore) : CreditCall → CreditStore
  | .recordCredit taskId entry => Credit.recordCredit store taskId entry
  | .recordCorrectionCredit taskId prUrl => Credit.recordCorrectionCredit store taskId prUrl
  | .invalidateDurableCredit taskId source invalidation =>
      Credit.invalidateDurableCredit store taskId source invalidation

/-- The store after a sequence of calls on an empty one. -/
def storeAfter (calls : List CreditCall) : CreditStore := calls.foldl CreditCall.apply fun _ => none

end Remudero.Credit
