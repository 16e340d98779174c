import Remudero.Credit.Store

/-! # What a quarantine keeps

Sequences of calls on an empty credit store, with entries and marks of pull requests of one
repository.  `apply_cases` says what one call can do to the record of a task; `RecordOk` is the
invariant of a record.

The main result is `quarantine_holds`: a pull request that was invalidated never counts again and no
mark is lost or changed, whatever the calls are; a pull request that is recorded into a free or
quarantined slot counts until it is invalidated itself, when the url text of each quarantined entry
that has to make room is among the marks.  `case_changed_mark_blocks_slot` has a mark whose url
differs from the entry's in the case of one letter. -/

namespace Remudero.Credit

open Remudero.Lib

/-- The record a call works on. -/
def recordOf (store : CreditStore) (taskId : Text) : CreditStoreTaskRecord := (store taskId).getD {}

def WellFormedEntry (repository : Text) (entry : CreditStoreEntry) : Prop :=
  entry.prState = "MERGED".toList ∧ creditPrProblem entry.prNumber entry.prUrl repository = none

def WellFormedMark (repository : Text) (mark : DurableCreditInvalidation) : Prop :=
  creditPrProblem mark.prNumber mark.prUrl repository = none ∧ (Text.trim mark.reason).isEmpty = false

def CreditCall.WellFormed (repository : Text) : CreditCall → Prop
  | .recordCredit _ entry => WellFormedEntry repository entry
  | .recordCorrectionCredit _ _ => True
  | .invalidateDurableCredit _ _ mark => WellFormedMark repository mark

/-- A record of well-formed entries and marks, each where it belongs. -/
structure RecordOk (repository : Text) (record : CreditStoreTaskRecord) : Prop where
  marks : ∀ key mark, record.invalidated.get? key = some mark → WellFormedMark repository mark ∧
    (key = "trailer".toList ∨ key = "head-branch".toList ∨ key = mark.prUrl)
  slots : ∀ source entry, record.slot source = some entry →
    entry.source = source ∧ WellFormedEntry repository entry

section step

variable {repository taskId : Text} {store : CreditStore} {record : CreditStoreTaskRecord} {call : CreditCall}

theorem mem_quarantinedCreditUrls_iff {url : Text} :
    url ∈ record.quarantinedCreditUrls ↔ ∃ key mark, record.invalidated.get? key = some mark ∧ mark.prUrl = url := by
  unfold CreditStoreTaskRecord.quarantinedCreditUrls
  simp only [List.mem_map, Record.mem_values_iff]
  constructor
  · rintro ⟨mark, ⟨key, h⟩, hurl⟩
    exact ⟨key, mark, h, hurl⟩
  · rintro ⟨key, mark, h, hurl⟩
    exact ⟨mark, ⟨key, h⟩, hurl⟩

theorem mem_quarantinedNumbers_iff {n : ℤ} :
    n ∈ record.quarantinedNumbers ↔ ∃ key mark, record.invalidated.get? key = some mark ∧ mark.prNumber = n := by
  unfold CreditStoreTaskRecord.quarantinedNumbers
  simp only [List.mem_map, Record.mem_values_iff]
  constructor
  · rintro ⟨mark, ⟨key, h⟩, hn⟩
    exact ⟨key, mark, h, hn⟩
  · rintro ⟨key, mark, h, hn⟩
    exact ⟨mark, ⟨key, h⟩, hn⟩

/-- A quarantined url is the url of a quarantined number. -/
theorem RecordOk.number_of_url (h : RecordOk repository record) {n : ℤ} {url : Text}
    (hn : creditPrProblem n url repository = none) (hurl : url ∈ record.quarantinedCreditUrls) :
    n ∈ record.quarantinedNumbers := by
  obtain ⟨key, mark, hget, rfl⟩ := mem_quarantinedCreditUrls_iff.mp hurl
  have hmark := (h.marks key mark hget).1.1
  exact mem_quarantinedNumbers_iff.mpr ⟨key, mark, hget, prNumber_unique hmark hn⟩

/-- The key a new mark is stored under. -/
def markKey (record : CreditStoreTaskRecord) (source : CreditSource) (mark : DurableCreditInvalidation) : Text :=
  if (record.invalidated.get? source.key).isSome then mark.prUrl else source.key

/-- A new mark does not replace another one. -/
theorem RecordOk.markKey_fresh (h : RecordOk repository record) {source : CreditSource}
    {mark : DurableCreditInvalidation} (hmark : WellFormedMark repository mark)
    (hnew : mark.prUrl ∉ record.quarantinedCreditUrls) : record.invalidated.get? (markKey record source mark) = none := by
  unfold markKey
  split
  · by_contra hsome
    obtain ⟨other, hget⟩ := Option.ne_none_iff_exists'.mp hsome
    have hname : ∀ name : Text, matchPrUrl name = none → mark.prUrl ≠ name := by
      rintro name hnone rfl
      have hproblem := hmark.1
      unfold creditPrProblem at hproblem
      rw [hnone] at hproblem
      split at hproblem
      · cases hproblem
      · cases hproblem
    obtain htrailer | hbranch | hurl := (h.marks _ other hget).2
    · exact hname _ (by decide) htrailer
    · exact hname _ (by decide) hbranch
    · exact hnew (mem_quarantinedCreditUrls_iff.mpr ⟨_, other, hget, hurl.symm⟩)
  · next hnone => simpa using hnone

/-- What a call can do to the record of a task. -/
theorem apply_cases (store : CreditStore) (call : CreditCall) (taskId : Text) :
    recordOf (call.apply store) taskId = recordOf store taskId ∨
    (∃ entry, call = .recordCredit taskId entry ∧ entry.prUrl ∉ (recordOf store taskId).quarantinedCreditUrls ∧
      (∀ current, (recordOf store taskId).slot entry.source = some current →
        current.prUrl ∈ (recordOf store taskId).quarantinedCreditUrls) ∧
      recordOf (call.apply store) taskId = (recordOf store taskId).setSlot entry) ∨
    (∃ correction, recordOf (call.apply store) taskId = { recordOf store taskId with correction := correction }) ∨
    ∃ source mark, call = .invalidateDurableCredit taskId source mark ∧
      mark.prUrl ∉ (recordOf store taskId).quarantinedCreditUrls ∧
      recordOf (call.apply store) taskId = { recordOf store taskId with
        invalidated := (recordOf store taskId).invalidated.set (markKey (recordOf store taskId) source mark) mark } := by
  cases call with
  | recordCredit task entry =>
      simp only [CreditCall.apply, recordCredit]
      split
      · exact Or.inl rfl
      · next hfree =>
          simp only [Bool.or_eq_true, not_or, List.contains_iff_mem, Option.any_eq_true, not_exists, not_and,
            Bool.not_eq_true', Bool.not_eq_false] at hfree
          by_cases htask : task = taskId
          · subst htask
            refine Or.inr (Or.inl ⟨entry, rfl, hfree.1, hfree.2, ?_⟩)
            simp [recordOf]
          · left
            simp [recordOf, Ne.symm htask]
  | recordCorrectionCredit task prUrl =>
      simp only [CreditCall.apply, recordCorrectionCredit]
      split
      · exact Or.inl rfl
      · by_cases htask : task = taskId
        · subst htask
          refine Or.inr (Or.inr (Or.inl ⟨some (prUrl, prNumberFromRef prUrl), ?_⟩))
          simp [recordOf]
        · left
          simp [recordOf, Ne.symm htask]
  | invalidateDurableCredit task source mark =>
      simp only [CreditCall.apply, invalidateDurableCredit]
      split
      · exact Or.inl rfl
      · next hnew =>
          by_cases htask : task = taskId
          · subst htask
            refine Or.inr (Or.inr (Or.inr ⟨source, mark, rfl, ?_, ?_⟩))
            · simpa [recordOf] using hnew
            · simp only [recordOf, Function.update_self, Option.getD_some]
              rfl
          · left
            simp [recordOf, Ne.symm htask]

theorem get?_mark_kept (hok : RecordOk repository (recordOf store taskId)) (hwf : call.WellFormed repository)
    {key : Text} {mark : DurableCreditInvalidation} (h : (recordOf store taskId).invalidated.get? key = some mark) :
    (recordOf (call.apply store) taskId).invalidated.get? key = some mark := by
  obtain hsame | ⟨entry, -, -, -, heq⟩ | ⟨correction, heq⟩ | ⟨source, new, rfl, hnew, heq⟩ := apply_cases store call taskId
  · rw [hsame]
    exact h
  · rw [heq, CreditStoreTaskRecord.invalidated_setSlot]
    exact h
  · rw [heq]
    exact h
  · have hfresh : (recordOf store taskId).invalidated.get? (markKey (recordOf store taskId) source new) = none :=
      hok.markKey_fresh hwf hnew
    have hne : key ≠ markKey (recordOf store taskId) source new := by
      rintro rfl
      rw [hfresh] at h
      cases h
    rw [heq]
    exact (Record.get?_set_of_ne _ new hne).trans h

theorem recordOk_apply (hok : RecordOk repository (recordOf store taskId)) (hwf : call.WellFormed repository) :
    RecordOk repository (recordOf (call.apply store) taskId) := by
  obtain hsame | ⟨entry, rfl, -, -, heq⟩ | ⟨correction, heq⟩ | ⟨source, new, rfl, hnew, heq⟩ := apply_cases store call taskId
  · rw [hsame]
    exact hok
  · rw [heq]
    refine ⟨?_, ?_⟩
    · rw [CreditStoreTaskRecord.invalidated_setSlot]
      exact hok.marks
    · intro source e he
      by_cases hsource : source = entry.source
      · subst hsource
        rw [CreditStoreTaskRecord.slot_setSlot_self, Option.some.injEq] at he
        subst he
        exact ⟨rfl, hwf⟩
      · rw [CreditStoreTaskRecord.slot_setSlot_of_ne _ hsource] at he
        exact hok.slots source e he
  · rw [heq]
    refine ⟨hok.marks, ?_⟩
    intro source e he
    exact hok.slots source e (by cases source <;> exact he)
  · rw [heq]
    refine ⟨?_, ?_⟩
    · intro key mark hget
      by_cases hkey : key = markKey (recordOf store taskId) source new
      · subst hkey
        rw [Record.get?_set_self, Option.some.injEq] at hget
        subst hget
        refine ⟨hwf, ?_⟩
        unfold markKey
        split
        · exact Or.inr (Or.inr rfl)
        · cases source
          · exact Or.inl rfl
          · exact Or.inr (Or.inl rfl)
      · rw [Record.get?_set_of_ne _ _ hkey] at hget
        exact hok.marks key mark hget
    · intro s e he
      exact hok.slots s e (by cases s <;> exact he)

/-- Once a call has invalidated a pull request its number is quarantined. -/
theorem quarantined_apply (hok : RecordOk repository (recordOf store taskId)) {source : CreditSource}
    {mark : DurableCreditInvalidation} (hmark : WellFormedMark repository mark) :
    mark.prNumber ∈
      (recordOf ((CreditCall.invalidateDurableCredit taskId source mark).apply store) taskId).quarantinedNumbers := by
  by_cases hold : mark.prUrl ∈ (recordOf store taskId).quarantinedCreditUrls
  · have hsame : (CreditCall.invalidateDurableCredit taskId source mark).apply store = store := by
      have hcontains : ((store taskId).getD {}).quarantinedCreditUrls.contains mark.prUrl = true :=
        List.contains_iff_mem.mpr hold
      simp only [CreditCall.apply, invalidateDurableCredit, hcontains, if_true]
    rw [hsame]
    exact hok.number_of_url hmark.1 hold
  · have hcontains : ((store taskId).getD {}).quarantinedCreditUrls.contains mark.prUrl = false := by
      rw [← Bool.not_eq_true, List.contains_iff_mem]
      exact hold
    have hrecord : recordOf ((CreditCall.invalidateDurableCredit taskId source mark).apply store) taskId =
        { recordOf store taskId with
          invalidated := (recordOf store taskId).invalidated.set (markKey (recordOf store taskId) source mark) mark } := by
      simp only [CreditCall.apply, invalidateDurableCredit, hcontains, Bool.false_eq_true, if_false, recordOf,
        Function.update_self, Option.getD_some]
      rfl
    rw [mem_quarantinedNumbers_iff, hrecord]
    exact ⟨markKey (recordOf store taskId) source mark, mark, Record.get?_set_self _ _ _, rfl⟩

end step

/-! ### Reading -/

section read

variable {repository taskId : Text} {overrides : List CreditOverrideRow} {record : CreditStoreTaskRecord}

theorem scanSlots_ok {sources : List CreditSource} {reasons : List Text} {entry : CreditStoreEntry}
    (h : scanSlots taskId repository overrides record sources reasons = .ok entry) :
    ∃ source ∈ sources, record.slot source = some entry ∧
      entryRefusal taskId repository overrides record source entry = none := by
  induction sources generalizing reasons with
  | nil => cases h
  | cons source sources ih =>
      have hlater : ∀ {reasons}, scanSlots taskId repository overrides record sources reasons = .ok entry →
          ∃ s ∈ source :: sources, record.slot s = some entry ∧
            entryRefusal taskId repository overrides record s entry = none := by
        intro reasons h
        obtain ⟨s, hs, hentry⟩ := ih h
        exact ⟨s, List.mem_cons_of_mem source hs, hentry⟩
      rw [scanSlots] at h
      split at h
      · exact hlater h
      · next e he =>
          split at h
          · exact hlater h
          · next hnone =>
              obtain rfl := Except.ok.inj h
              exact ⟨source, List.mem_cons_self, he, hnone⟩

theorem scanSlots_isOk {sources : List CreditSource} {source : CreditSource} {entry : CreditStoreEntry}
    (reasons : List Text) (hmem : source ∈ sources) (hslot : record.slot source = some entry)
    (hcounts : entryRefusal taskId repository overrides record source entry = none) :
    ∃ e, scanSlots taskId repository overrides record sources reasons = .ok e := by
  induction sources generalizing reasons with
  | nil => cases hmem
  | cons s sources ih =>
      rw [scanSlots]
      obtain rfl | hmem := List.mem_cons.mp hmem
      · simp only [hslot, hcounts]
        exact ⟨entry, rfl⟩
      · split
        · exact ih reasons hmem
        · next e _ =>
            split
            · exact ih _ hmem
            · exact ⟨e, rfl⟩

/-- What counts is not quarantined. -/
theorem not_quarantined_of_credited {store : CreditStore} {entry : CreditStoreEntry}
    (h : creditedEntry store taskId repository overrides = .ok entry) :
    entry.prNumber ∉ (recordOf store taskId).quarantinedNumbers := by
  unfold creditedEntry at h
  cases hrecord : store taskId with
  | none => simp [hrecord] at h
  | some record =>
      simp only [hrecord] at h
      split at h
      · cases h
      · obtain ⟨source, -, -, hcounts⟩ := scanSlots_ok h
        have hof : recordOf store taskId = record := by simp [recordOf, hrecord]
        rw [hof]
        intro hquarantined
        unfold entryRefusal at hcounts
        split at hcounts
        · cases hcounts
        · split at hcounts
          · cases hcounts
          · split at hcounts
            · cases hcounts
            · rw [if_pos (Or.inr hquarantined)] at hcounts
              cases hcounts

/-- A well-formed entry whose number has no mark and no override counts. -/
theorem merged_of_slot {store : CreditStore} {source : CreditSource} {entry : CreditStoreEntry}
    (hok : RecordOk repository (recordOf store taskId))
    (hslot : (recordOf store taskId).slot source = some entry)
    (hnumber : entry.prNumber ∉ (recordOf store taskId).quarantinedNumbers)
    (hoverride : creditOverrideFor overrides taskId entry.prNumber = none) :
    durableDependencyCredit store taskId repository overrides = .merged := by
  obtain ⟨hsource, hstate, hproblem⟩ := hok.slots source entry hslot
  have hurl : entry.prUrl ∉ (recordOf store taskId).quarantinedCreditUrls :=
    fun h => hnumber (hok.number_of_url hproblem h)
  have hcounts : entryRefusal taskId repository overrides (recordOf store taskId) source entry = none := by
    simp [entryRefusal, hsource, hstate, hproblem, hurl, hnumber, hoverride]
  have hmarks : (recordOf store taskId).invalidated.entries.any (fun e => malformedMark repository e.1 e.2) = false := by
    rw [List.any_eq_false]
    rintro ⟨key, mark⟩ hmem
    have hget : (recordOf store taskId).invalidated.get? key = some mark :=
      entryOf_of_mem (recordOf store taskId).invalidated.nodup hmem
    obtain ⟨⟨hp, hreason⟩, hkey⟩ := hok.marks key mark hget
    rw [Bool.not_eq_true]
    simp only [malformedMark, hp, hreason, Option.isSome_none, Bool.or_self, Bool.false_or]
    obtain rfl | rfl | rfl := hkey <;> simp
  have hmem : source ∈ [CreditSource.trailer, CreditSource.headBranch] := by cases source <;> simp
  obtain ⟨e, he⟩ := scanSlots_isOk [] hmem hslot hcounts
  cases hrecord : store taskId with
  | none =>
      have hempty : recordOf store taskId = {} := by simp [recordOf, hrecord]
      rw [hempty] at hslot
      cases source <;> cases hslot
  | some record =>
      have hof : recordOf store taskId = record := by simp [recordOf, hrecord]
      rw [hof] at he hmarks
      simp only [durableDependencyCredit, creditedEntry, hrecord, hmarks, Bool.false_eq_true, if_false, he]

end read

/-! ### Sequences of calls -/

/-- The number was invalidated for the task. -/
def Invalidated (calls : List CreditCall) (taskId : Text) (prNumber : ℤ) : Prop :=
  ∃ source mark, CreditCall.invalidateDurableCredit taskId source mark ∈ calls ∧ mark.prNumber = prNumber

/-- The slot of an entry is empty or holds a quarantined pull request. -/
def SlotFree (store : CreditStore) (taskId : Text) (entry : CreditStoreEntry) : Prop :=
  ∀ current, (recordOf store taskId).slot entry.source = some current →
    current.prNumber ∈ (recordOf store taskId).quarantinedNumbers

/-- When an entry is to take the place of a quarantined one, the url text of that one is among the
marks. -/
def ClearsSlot (store : CreditStore) : CreditCall → Prop
  | .recordCredit taskId entry =>
      entry.prNumber ∉ (recordOf store taskId).quarantinedNumbers →
        ∀ current, (recordOf store taskId).slot entry.source = some current →
          current.prNumber ∈ (recordOf store taskId).quarantinedNumbers →
          current.prUrl ∈ (recordOf store taskId).quarantinedCreditUrls
  | _ => True

/-- Every call of the sequence clears its slot. -/
def RunClears (calls : List CreditCall) : Prop :=
  ∀ before call after, calls = before ++ call :: after → ClearsSlot (storeAfter before) call

theorem runClears_of_take {calls : List CreditCall}
    (h : ∀ i (hi : i < calls.length), ClearsSlot (storeAfter (calls.take i)) calls[i]) : RunClears calls := by
  rintro before call after rfl
  have hcall := h before.length (by simp)
  rw [List.take_left, List.getElem_append_right le_rfl] at hcall
  simpa using hcall

section runs

variable {repository taskId : Text}

theorem storeAfter_append (before after : List CreditCall) :
    storeAfter (before ++ after) = after.foldl CreditCall.apply (storeAfter before) :=
  List.foldl_append

theorem storeAfter_snoc (calls : List CreditCall) (call : CreditCall) :
    storeAfter (calls ++ [call]) = call.apply (storeAfter calls) :=
  storeAfter_append calls [call]

theorem recordOk_storeAfter {calls : List CreditCall} (hwf : ∀ call ∈ calls, call.WellFormed repository) :
    RecordOk repository (recordOf (storeAfter calls) taskId) := by
  induction calls using List.reverseRecOn with
  | nil =>
      refine ⟨?_, ?_⟩
      · intro key mark hget
        cases hget
      · intro source entry hslot
        cases source <;> cases hslot
  | append_singleton calls call ih =>
      rw [storeAfter_snoc]
      exact recordOk_apply (ih fun c hc => hwf c (List.mem_append_left _ hc)) (hwf call (by simp))

theorem mark_kept {before after : List CreditCall} (hwf : ∀ call ∈ before ++ after, call.WellFormed repository)
    {key : Text} {mark : DurableCreditInvalidation}
    (h : (recordOf (storeAfter before) taskId).invalidated.get? key = some mark) :
    (recordOf (storeAfter (before ++ after)) taskId).invalidated.get? key = some mark := by
  induction after using List.reverseRecOn with
  | nil =>
      rw [List.append_nil]
      exact h
  | append_singleton after call ih =>
      rw [← List.append_assoc] at hwf ⊢
      have hearlier : ∀ c ∈ before ++ after, c.WellFormed repository := fun c hc => hwf c (List.mem_append_left _ hc)
      rw [storeAfter_snoc]
      exact get?_mark_kept (recordOk_storeAfter hearlier) (hwf call (by simp)) (ih hearlier)

theorem quarantined_of_invalidated {calls : List CreditCall} (hwf : ∀ call ∈ calls, call.WellFormed repository)
    {n : ℤ} (h : Invalidated calls taskId n) : n ∈ (recordOf (storeAfter calls) taskId).quarantinedNumbers := by
  obtain ⟨source, mark, hmem, rfl⟩ := h
  obtain ⟨before, after, rfl⟩ := List.append_of_mem hmem
  have hbefore : ∀ call ∈ before, call.WellFormed repository := fun c hc => hwf c (List.mem_append_left _ hc)
  have hmark : WellFormedMark repository mark := hwf (.invalidateDurableCredit taskId source mark) hmem
  have hnow : mark.prNumber ∈ (recordOf ((CreditCall.invalidateDurableCredit taskId source mark).apply
      (storeAfter before)) taskId).quarantinedNumbers :=
    quarantined_apply (recordOk_storeAfter hbefore) hmark
  rw [← storeAfter_snoc] at hnow
  obtain ⟨key, m, hget, hm⟩ := mem_quarantinedNumbers_iff.mp hnow
  rw [List.append_cons] at hwf ⊢
  exact mem_quarantinedNumbers_iff.mpr ⟨key, m, mark_kept hwf hget, hm⟩

/-- An entry whose number has no mark stays in its slot until a call invalidates it. -/
theorem entry_kept {store : CreditStore} {call : CreditCall} {entry : CreditStoreEntry}
    (hok : RecordOk repository (recordOf store taskId))
    (hslot : (recordOf store taskId).slot entry.source = some entry)
    (hnumber : entry.prNumber ∉ (recordOf store taskId).quarantinedNumbers)
    (hcall : ∀ source mark, call = .invalidateDurableCredit taskId source mark → mark.prNumber ≠ entry.prNumber) :
    (recordOf (call.apply store) taskId).slot entry.source = some entry ∧
      entry.prNumber ∉ (recordOf (call.apply store) taskId).quarantinedNumbers := by
  obtain hsame | ⟨new, rfl, -, hfree, heq⟩ | ⟨correction, heq⟩ | ⟨source, mark, rfl, -, heq⟩ := apply_cases store call taskId
  · rw [hsame]
    exact ⟨hslot, hnumber⟩
  · have hother : entry.source ≠ new.source := by
      intro hsource
      rw [← hsource] at hfree
      exact hnumber (hok.number_of_url (hok.slots _ entry hslot).2.2 (hfree entry hslot))
    rw [heq, CreditStoreTaskRecord.slot_setSlot_of_ne _ hother]
    refine ⟨hslot, ?_⟩
    rw [mem_quarantinedNumbers_iff, CreditStoreTaskRecord.invalidated_setSlot, ← mem_quarantinedNumbers_iff]
    exact hnumber
  · rw [heq]
    exact ⟨by cases hs : entry.source <;> rw [hs] at hslot <;> exact hslot, hnumber⟩
  · rw [heq]
    refine ⟨by cases hs : entry.source <;> rw [hs] at hslot <;> exact hslot, ?_⟩
    rw [mem_quarantinedNumbers_iff]
    rintro ⟨key, m, hget, hm⟩
    by_cases hkey : key = markKey (recordOf store taskId) source mark
    · subst hkey
      rw [Record.get?_set_self, Option.some.injEq] at hget
      exact hcall source mark rfl (hget ▸ hm)
    · rw [Record.get?_set_of_ne _ _ hkey] at hget
      exact hnumber (mem_quarantinedNumbers_iff.mpr ⟨key, m, hget, hm⟩)

theorem entry_kept_run {before after : List CreditCall} {entry : CreditStoreEntry}
    (hwf : ∀ call ∈ before ++ after, call.WellFormed repository)
    (hslot : (recordOf (storeAfter before) taskId).slot entry.source = some entry)
    (hnumber : entry.prNumber ∉ (recordOf (storeAfter before) taskId).quarantinedNumbers)
    (hafter : ¬ Invalidated after taskId entry.prNumber) :
    (recordOf (storeAfter (before ++ after)) taskId).slot entry.source = some entry ∧
      entry.prNumber ∉ (recordOf (storeAfter (before ++ after)) taskId).quarantinedNumbers := by
  induction after using List.reverseRecOn with
  | nil =>
      rw [List.append_nil]
      exact ⟨hslot, hnumber⟩
  | append_singleton after call ih =>
      rw [← List.append_assoc] at hwf ⊢
      have hearlier : ∀ c ∈ before ++ after, c.WellFormed repository := fun c hc => hwf c (List.mem_append_left _ hc)
      have hnot : ¬ Invalidated after taskId entry.prNumber := by
        rintro ⟨source, mark, hmem, hn⟩
        exact hafter ⟨source, mark, List.mem_append_left _ hmem, hn⟩
      obtain ⟨hs, hn⟩ := ih hearlier hnot
      rw [storeAfter_snoc]
      apply entry_kept (recordOk_storeAfter hearlier) hs hn
      rintro source mark rfl hm
      exact hafter ⟨source, mark, by simp, hm⟩

/-- A call that clears its slot puts an entry whose number has no mark there. -/
theorem recordCredit_slot {store : CreditStore} {entry : CreditStoreEntry}
    (hok : RecordOk repository (recordOf store taskId)) (hentry : WellFormedEntry repository entry)
    (hnumber : entry.prNumber ∉ (recordOf store taskId).quarantinedNumbers) (hfree : SlotFree store taskId entry)
    (hclears : ClearsSlot store (.recordCredit taskId entry)) :
    recordOf (recordCredit store taskId entry) taskId = (recordOf store taskId).setSlot entry := by
  have hurl : (recordOf store taskId).quarantinedCreditUrls.contains entry.prUrl = false := by
    rw [← Bool.not_eq_true, List.contains_iff_mem]
    exact fun h => hnumber (hok.number_of_url hentry.2 h)
  have hslot : ((recordOf store taskId).slot entry.source).any
      (fun current => !(recordOf store taskId).quarantinedCreditUrls.contains current.prUrl) = false := by
    cases hs : (recordOf store taskId).slot entry.source with
    | none => rfl
    | some current =>
        have hmem := List.contains_iff_mem.mpr (hclears hnumber current hs (hfree current hs))
        simp only [Option.any_some, hmem, Bool.not_true]
  unfold recordOf at hurl hslot ⊢
  simp only [recordCredit, hurl, hslot, Bool.or_self, Bool.false_eq_true, if_false, Function.update_self,
    Option.getD_some]

end runs

/-- For every sequence of well-formed calls: an invalidated number never counts again, no mark is
lost or changed, and, when every call clears its slot, a pull request without mark and override that
is recorded into a free slot counts until it is invalidated. -/
theorem quarantine_holds (repository : Text) (calls : List CreditCall)
    (hwf : ∀ call ∈ calls, call.WellFormed repository) :
    (∀ taskId n, Invalidated calls taskId n → ∀ overrides entry,
      creditedEntry (storeAfter calls) taskId repository overrides = .ok entry → entry.prNumber ≠ n) ∧
    (∀ before after, calls = before ++ after → ∀ taskId key mark,
      (recordOf (storeAfter before) taskId).invalidated.get? key = some mark →
      (recordOf (storeAfter calls) taskId).invalidated.get? key = some mark) ∧
    (RunClears calls → ∀ before taskId entry after, calls = before ++ .recordCredit taskId entry :: after →
      entry.prNumber ∉ (recordOf (storeAfter before) taskId).quarantinedNumbers →
      SlotFree (storeAfter before) taskId entry → ¬ Invalidated after taskId entry.prNumber →
      ∀ overrides, creditOverrideFor overrides taskId entry.prNumber = none →
        durableDependencyCredit (storeAfter calls) taskId repository overrides = .merged) := by
  refine ⟨?_, ?_, ?_⟩
  · rintro taskId n hinvalidated overrides entry hcredited rfl
    exact not_quarantined_of_credited hcredited (quarantined_of_invalidated hwf hinvalidated)
  · rintro before after rfl taskId key mark hget
    exact mark_kept hwf hget
  · rintro hclears before taskId entry after rfl hnumber hfree hafter overrides hoverride
    have hbefore : ∀ call ∈ before, call.WellFormed repository := fun c hc => hwf c (List.mem_append_left _ hc)
    have hok : RecordOk repository (recordOf (storeAfter before) taskId) := recordOk_storeAfter hbefore
    have hentry : WellFormedEntry repository entry := hwf (.recordCredit taskId entry) (by simp)
    have hrecord := recordCredit_slot hok hentry hnumber hfree (hclears before _ after rfl)
    have hstore : storeAfter (before ++ [.recordCredit taskId entry]) = recordCredit (storeAfter before) taskId entry :=
      storeAfter_snoc before _
    rw [← hstore] at hrecord
    have hslot : (recordOf (storeAfter (before ++ [.recordCredit taskId entry])) taskId).slot entry.source = some entry := by
      rw [hrecord, CreditStoreTaskRecord.slot_setSlot_self]
    have hnumber' : entry.prNumber ∉
        (recordOf (storeAfter (before ++ [.recordCredit taskId entry])) taskId).quarantinedNumbers := by
      rw [hrecord, mem_quarantinedNumbers_iff, CreditStoreTaskRecord.invalidated_setSlot, ← mem_quarantinedNumbers_iff]
      exact hnumber
    rw [List.append_cons] at hwf ⊢
    obtain ⟨hs, hn⟩ := entry_kept_run hwf hslot hnumber' hafter
    exact merged_of_slot (recordOk_storeAfter hwf) hs hn hoverride

/-- The merged pull request 5, found by its trailer, under the url `https://github.com/O/r/pull/5`. -/
def firstEntry : CreditStoreEntry :=
  ⟨.trailer, "https://github.com/O/r/pull/5".toList, 5, "MERGED".toList⟩

def replacement : CreditStoreEntry :=
  ⟨.trailer, "https://github.com/o/r/pull/7".toList, 7, "MERGED".toList⟩

def markUnder (prUrl : String) : CreditCall :=
  .invalidateDurableCredit "T".toList .trailer ⟨prUrl.toList, 5, "plan only".toList⟩

/-- Pull request 5 is recorded, then invalidated under a url, and then 7 is recorded. -/
def replacedUnder (prUrl : String) : List CreditCall :=
  [.recordCredit "T".toList firstEntry, markUnder prUrl, .recordCredit "T".toList replacement]

theorem wellFormed_replacedUnder {prUrl : String} (h : creditPrProblem 5 prUrl.toList "o/r".toList = none) :
    ∀ call ∈ replacedUnder prUrl, CreditCall.WellFormed "o/r".toList call := by
  have hreason : (Text.trim "plan only".toList).isEmpty = false := by decide +kernel
  simp only [replacedUnder, List.mem_cons, List.not_mem_nil, or_false, forall_eq_or_imp, forall_eq,
    CreditCall.WellFormed, markUnder]
  exact ⟨⟨rfl, by decide +kernel⟩, ⟨h, hreason⟩, rfl, by decide +kernel⟩

/-- With the mark under the entry's own url, 5 never counts and 7 does. -/
theorem quarantine_holds_replaced :
    let calls := replacedUnder "https://github.com/O/r/pull/5"
    (∀ overrides entry, creditedEntry (storeAfter calls) "T".toList "o/r".toList overrides = .ok entry →
      entry.prNumber ≠ 5) ∧
    durableDependencyCredit (storeAfter calls) "T".toList "o/r".toList [] = .merged := by
  intro calls
  have h := quarantine_holds "o/r".toList calls (wellFormed_replacedUnder (by decide +kernel))
  have hslot : (recordOf (storeAfter (calls.take 2)) "T".toList).slot .trailer = some firstEntry := by decide +kernel
  have hurl : firstEntry.prUrl ∈ (recordOf (storeAfter (calls.take 2)) "T".toList).quarantinedCreditUrls := by
    decide +kernel
  refine ⟨h.1 "T".toList 5 ⟨_, _, List.mem_cons_of_mem _ List.mem_cons_self, rfl⟩, ?_⟩
  refine h.2.2 ?_ (calls.take 2) "T".toList replacement [] rfl (by decide +kernel) ?_ ?_ [] rfl
  · apply runClears_of_take
    intro i hi
    match i, hi with
    | 0, _ =>
        intro _ current hcurrent
        cases hcurrent
    | 1, _ => trivial
    | 2, _ =>
        intro _ current hcurrent _
        obtain rfl : firstEntry = current := Option.some.inj (hslot.symm.trans hcurrent)
        exact hurl
  · intro current hcurrent
    obtain rfl : firstEntry = current := Option.some.inj (hslot.symm.trans hcurrent)
    decide +kernel
  · rintro ⟨_, _, hmem, _⟩
    cases hmem

/-- With the mark under `https://github.com/o/r/pull/5` the entry of 5 does not count, and keeps its
slot: 7 is not recorded and the task does not read merged. -/
theorem case_changed_mark_blocks_slot :
    ¬ ∀ (repository : Text) (calls : List CreditCall), (∀ call ∈ calls, call.WellFormed repository) →
      ∀ before taskId entry after, calls = before ++ .recordCredit taskId entry :: after →
        entry.prNumber ∉ (recordOf (storeAfter before) taskId).quarantinedNumbers →
        SlotFree (storeAfter before) taskId entry → ¬ Invalidated after taskId entry.prNumber →
        ∀ overrides, creditOverrideFor overrides taskId entry.prNumber = none →
          durableDependencyCredit (storeAfter calls) taskId repository overrides = .merged := by
  intro h
  set calls := replacedUnder "https://github.com/o/r/pull/5" with hcalls
  have hslot : (recordOf (storeAfter (calls.take 2)) "T".toList).slot .trailer = some firstEntry := by decide +kernel
  have hfree : SlotFree (storeAfter (calls.take 2)) "T".toList replacement := by
    intro current hcurrent
    obtain rfl : firstEntry = current := Option.some.inj (hslot.symm.trans hcurrent)
    decide +kernel
  have hafter : ¬ Invalidated [] "T".toList replacement.prNumber := by
    rintro ⟨_, _, hmem, _⟩
    cases hmem
  have hmerged := h "o/r".toList calls (wellFormed_replacedUnder (by decide +kernel)) (calls.take 2) "T".toList
    replacement [] rfl (by decide +kernel) hfree hafter [] rfl
  have hunknown : durableDependencyCredit (storeAfter calls) "T".toList "o/r".toList [] ≠ .merged := by decide +kernel
  exact hunknown hmerged

end Remudero.Credit
