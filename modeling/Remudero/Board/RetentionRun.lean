import Remudero.Board.RetentionSafety

/-! # The board answers its readers

The runs of the board.  An update moves the readers' time and reads a chunk of facts, drops what no rule
holds, and at the end of a bulk load sorts the rows; between two updates the board is `Ready`.
`retention_exact` is the result over runs: whatever the order in which the rows arrive, the chunks they come
in and the times of the readers, the rows of the board are those that its rules select over the whole
history, in order, and each disposition among them is judged as over the whole history.  It holds when no row
comes too late (`InTime`); `late_disposition_loses_change` is a run in which one does. -/

namespace Remudero.Board

open Remudero.Lib

section

variable {dateParse : Text → Option ℤ}

/-! ### A chunk of facts -/

theorem releaseRows_eq (b : BoardState) (rows : List BoardRow) :
    ∃ kept dropped, b.releaseRows rows = b.withKept kept dropped := by
  induction rows generalizing b with
  | nil => exact ⟨b.kept, b.dropped, rfl⟩
  | cons r rows ih =>
      have hone : ∃ kept dropped, b.release r.ins = b.withKept kept dropped := by
        unfold BoardState.release
        split
        · exact ⟨b.kept, b.dropped, rfl⟩
        · split_ifs <;> exact ⟨_, _, rfl⟩
      obtain ⟨kept, dropped, hone⟩ := hone
      obtain ⟨kept', dropped', hmore⟩ := ih (b.release r.ins)
      refine ⟨kept', dropped', hmore.trans ?_⟩
      rw [hone]
      rfl

theorem offer_times (b : BoardState) (now : ℤ) (r : BoardRow) (facts : BoardRowFacts) :
    (b.offer dateParse now r facts).1.readerNowMs = b.readerNowMs ∧ (b.offer dateParse now r facts).1.begun = b.begun := by
  unfold BoardState.offer
  dsimp only
  split_ifs
  all_goals
    obtain ⟨kept, dropped, heq⟩ := releaseRows_eq _ _
    rw [heq]
    exact ⟨rfl, rfl⟩

theorem Inv.withFlags {rules : List BoardRetentionRule} {b : BoardState} {history : List BoardRow} {now : ℤ}
    (h : Inv dateParse rules b history now) (readerNowMs : Option ℤ) (begun bulkOpen bulkOutOfOrder : Bool) :
    Inv dateParse rules { b with
      readerNowMs := readerNowMs
      begun := begun
      bulkOpen := bulkOpen
      bulkOutOfOrder := bulkOutOfOrder } history now :=
  ⟨h.rules, h.ins, h.arrives, h.numbers, h.last, h.holds, ⟨h.keeps.counts, h.keeps.nodup, h.keeps.read,
    h.keeps.accounted, h.keeps.present, h.keeps.dropped, h.keeps.bounded⟩, h.repeats⟩

/-- Reading a fact. -/
theorem Inv.readFact {rules : List BoardRetentionRule} {b : BoardState} {history : List BoardRow} {now : ℤ}
    {bulk outOfOrder : Bool} (hrules : Supported rules) (h : Inv dateParse rules b history now)
    (horder : Ordered b history bulk outOfOrder) {f : Fact} (hin : InTime (history ++ numbered history.length [f])) :
    let s := BoardState.readFact dateParse now bulk (b, outOfOrder) f
    Inv dateParse rules s.1 (history ++ numbered history.length [f]) now ∧
      Ordered s.1 (history ++ numbered history.length [f]) bulk s.2 ∧
      s.1.readerNowMs = b.readerNowMs ∧ s.1.begun = true := by
  let b₀ : BoardState := { b with begun := true }
  have h₀ : Inv dateParse rules b₀ history now := h.withFlags b.readerNowMs true b.bulkOpen b.bulkOutOfOrder
  have horder₀ : Ordered b₀ history bulk outOfOrder := ⟨horder.sorted, horder.appended, horder.placed⟩
  by_cases hunread : isUnread f = true
  · have hread : BoardState.readFact dateParse now bulk (b, outOfOrder) f = (b₀, outOfOrder) := if_pos hunread
    have hnone : numbered history.length [f] = [] := by simp [numbered, hunread]
    rw [hnone, List.append_nil, hread]
    exact ⟨h₀, horder₀, rfl, rfl⟩
  · let r : BoardRow := ⟨b.ins + 1, f.tsMs, withoutUnreadFields f.row⟩
    have hone : numbered history.length [f] = [r] := by simp [numbered, hunread, r, h.ins]
    rw [hone] at hin ⊢
    let repeated := (b₀.sweepRepeatOf r).1
    let b₁ : BoardState := { b₀ with ins := r.ins, lastDisposition := (b₀.sweepRepeatOf r).2 }
    let b₂ := (b₁.offer dateParse now r ⟨false, repeated⟩).1
    let b₃ : BoardState := if (dispositionPr r.row).isSome then
      { b₂ with sweepRepeats := b₂.sweepRepeats.set r.ins repeated } else b₂
    let late := outOfOrder || (bulk && b₃.rows.getLast?.any fun last => decide (r.tsMs < last.tsMs))
    have hread : BoardState.readFact dateParse now bulk (b, outOfOrder) f =
        if 0 < (b₁.offer dateParse now r ⟨false, repeated⟩).2 then (b₃.place r bulk, late) else (b₂, outOfOrder) :=
      if_neg hunread
    have hrow : if 0 < (b₁.offer dateParse now r ⟨false, repeated⟩).2 then
        Inv dateParse rules (b₃.place r bulk) (history ++ [r]) now ∧ Ordered (b₃.place r bulk) (history ++ [r]) bulk late
        else Inv dateParse rules b₂ (history ++ [r]) now ∧ Ordered b₂ (history ++ [r]) bulk outOfOrder :=
      h₀.readRow hrules horder₀ (congrArg (· + 1) h.ins) hin
    have htimes : b₂.readerNowMs = b.readerNowMs ∧ b₂.begun = true := offer_times b₁ now r ⟨false, repeated⟩
    rw [hread]
    by_cases hpos : 0 < (b₁.offer dateParse now r ⟨false, repeated⟩).2
    · rw [if_pos hpos] at hrow ⊢
      refine ⟨hrow.1, hrow.2, ?_⟩
      dsimp only
      rw [place_eq]
      show b₃.readerNowMs = _ ∧ b₃.begun = true
      unfold b₃
      split_ifs <;> exact htimes
    · rw [if_neg hpos] at hrow ⊢
      exact ⟨hrow.1, hrow.2, htimes⟩

/-- Reading a chunk. -/
theorem Inv.readFacts {rules : List BoardRetentionRule} {b : BoardState} {history : List BoardRow} {now : ℤ}
    {bulk outOfOrder : Bool} (hrules : Supported rules) (h : Inv dateParse rules b history now)
    (horder : Ordered b history bulk outOfOrder) (facts : List Fact)
    (hin : InTime (history ++ numbered history.length facts)) :
    let s := facts.foldl (BoardState.readFact dateParse now bulk) (b, outOfOrder)
    Inv dateParse rules s.1 (history ++ numbered history.length facts) now ∧
      Ordered s.1 (history ++ numbered history.length facts) bulk s.2 ∧
      s.1.readerNowMs = b.readerNowMs ∧ s.1.begun = (b.begun || !facts.isEmpty) := by
  induction facts generalizing b history outOfOrder with
  | nil => simpa [numbered] using ⟨h, horder⟩
  | cons f facts ih =>
      have hsplit : history ++ numbered history.length (f :: facts) = history ++ numbered history.length [f] ++
          numbered (history ++ numbered history.length [f]).length facts := by
        rw [List.length_append, List.append_assoc, ← numbered_append, List.singleton_append]
      rw [hsplit] at hin ⊢
      obtain ⟨hinv, horder', hnow, hbegun⟩ := h.readFact hrules horder hin.of_append
      obtain ⟨hinv', horder'', hnow', hbegun'⟩ := ih hinv horder' hin
      refine ⟨hinv', horder'', hnow'.trans hnow, hbegun'.trans ?_⟩
      rw [hbegun]
      simp

/-! ### Compaction and order -/

/-- Taking the dropped rows out. -/
theorem Inv.compact {rules : List BoardRetentionRule} {b : BoardState} {history : List BoardRow} {now : ℤ}
    (h : Inv dateParse rules b history now) :
    Inv dateParse rules b.compact history now ∧ b.compact.dropped = [] ∧ b.compact.rows.Sublist b.rows := by
  unfold BoardState.compact
  by_cases hempty : b.dropped.isEmpty = true
  · rw [if_pos hempty]
    exact ⟨h, List.isEmpty_iff.mp hempty, List.Sublist.refl _⟩
  · rw [if_neg hempty]
    have hsub : (b.rows.filter fun r => !b.dropped.contains r.ins).Sublist b.rows := List.filter_sublist
    refine ⟨⟨h.rules, h.ins, h.arrives, h.numbers, h.last, h.holds, ⟨h.keeps.counts, h.keeps.nodup.sublist (hsub.map _),
      fun r hr => h.keeps.read r (hsub.subset hr), fun r hr => .inl ?_, fun n hn => ?_, nofun, nofun⟩,
      fun r hr => h.repeats r (hsub.subset hr)⟩, rfl, hsub⟩
    · obtain ⟨hr, hout⟩ := List.mem_filter.mp hr
      refine (h.keeps.accounted r hr).resolve_right fun hdropped => ?_
      simp [hdropped] at hout
    · obtain ⟨r, hr, rfl⟩ := List.mem_map.mp (h.keeps.present n hn)
      refine List.mem_map_of_mem (List.mem_filter.mpr ⟨hr, ?_⟩)
      have hout : r.ins ∉ b.dropped := fun hdropped => h.keeps.dropped _ hdropped hn
      simpa using hout

theorem compact_eq (b : BoardState) :
    b.compact = { b with rows := b.compact.rows, dropped := b.compact.dropped } := by
  unfold BoardState.compact
  split_ifs <;> rfl

/-- The rows in another order. -/
theorem Inv.permute {rules : List BoardRetentionRule} {b : BoardState} {history : List BoardRow} {now : ℤ}
    (h : Inv dateParse rules b history now) {rows : List BoardRow} (hperm : rows.Perm b.rows) :
    Inv dateParse rules { b with rows := rows } history now :=
  ⟨h.rules, h.ins, h.arrives, h.numbers, h.last, h.holds, ⟨h.keeps.counts,
    (hperm.map BoardRow.ins).nodup_iff.mpr h.keeps.nodup, fun r hr => h.keeps.read r (hperm.subset hr),
    fun r hr => h.keeps.accounted r (hperm.subset hr),
    fun n hn => (hperm.map BoardRow.ins).symm.subset (h.keeps.present n hn), h.keeps.dropped, h.keeps.bounded⟩,
    fun r hr => h.repeats r (hperm.subset hr)⟩

theorem tsMs_le_trans (a b c : BoardRow) (hab : decide (a.tsMs ≤ b.tsMs) = true)
    (hbc : decide (b.tsMs ≤ c.tsMs) = true) : decide (a.tsMs ≤ c.tsMs) = true := by
  rw [decide_eq_true_eq] at *
  omega

theorem tsMs_le_total (a b : BoardRow) : (decide (a.tsMs ≤ b.tsMs) || decide (b.tsMs ≤ a.tsMs)) = true := by
  rw [Bool.or_eq_true, decide_eq_true_eq, decide_eq_true_eq]
  omega

/-- A stable sort by time leaves the rows of one time as they were. -/
theorem filter_mergeSort_tsMs (rows : List BoardRow) (t : ℤ) :
    (rows.mergeSort fun x y => decide (x.tsMs ≤ y.tsMs)).filter (fun r => decide (r.tsMs = t)) =
      rows.filter fun r => decide (r.tsMs = t) := by
  have hsub : (rows.filter fun r => decide (r.tsMs = t)).Sublist
      (rows.mergeSort fun x y => decide (x.tsMs ≤ y.tsMs)) := by
    refine List.sublist_mergeSort tsMs_le_trans tsMs_le_total ?_ List.filter_sublist
    refine List.pairwise_of_forall_mem_list fun a ha b hb => ?_
    have ha := of_decide_eq_true (List.mem_filter.mp ha).2
    have hb := of_decide_eq_true (List.mem_filter.mp hb).2
    exact decide_eq_true (by omega)
  have hsub := hsub.filter fun r => decide (r.tsMs = t)
  simp only [List.filter_filter, Bool.and_self] at hsub
  refine (hsub.eq_of_length ?_).symm
  exact (((List.mergeSort_perm rows _).filter _).length_eq).symm

/-- Rows in the order of their arrival are sorted by time, and then by arrival. -/
theorem pairwise_mergeSort_tsMs {rows : List BoardRow} (h : Arrives rows) :
    (rows.mergeSort fun x y => decide (x.tsMs ≤ y.tsMs)).Pairwise fun a c => a.before c = true := by
  have hsorted := List.pairwise_mergeSort tsMs_le_trans tsMs_le_total rows
  rw [List.pairwise_iff_forall_sublist] at hsorted ⊢
  intro a c hsub
  have hle := of_decide_eq_true (hsorted hsub)
  rw [before_iff]
  by_cases hts : a.tsMs = c.tsMs
  · have hsame := hsub.filter fun r => decide (r.tsMs = c.tsMs)
    rw [filter_mergeSort_tsMs] at hsame
    have harrives : Arrives ([a, c].filter fun r => decide (r.tsMs = c.tsMs)) :=
      (h.sublist List.filter_sublist).sublist hsame
    have hpair : [a, c].filter (fun r => decide (r.tsMs = c.tsMs)) = [a, c] := by simp [hts]
    rw [hpair] at harrives
    exact .inr ⟨hts, List.rel_of_pairwise_cons harrives (List.mem_singleton_self c)⟩
  · exact .inl (by omega)

/-! ### An update -/

variable (dateParse) in
/-- The board between two updates, at every time that may be its readers'. -/
structure Ready (rules : List BoardRetentionRule) (b : BoardState) (history : List BoardRow) : Prop where
  inv : ∀ now, b.readerNowMs.getD now = now → Inv dateParse rules b history now
  order : Ordered b history (!b.begun || b.bulkOpen) ((!b.begun || b.bulkOpen) && b.bulkOutOfOrder)
  begun : b.begun = false → history = []

/-- The rows are those that are held, and in order. -/
structure Settled (b : BoardState) : Prop where
  dropped : b.dropped = []
  sorted : b.rows.Pairwise fun a c => a.before c = true

theorem Ready.of_settled {rules : List BoardRetentionRule} {b : BoardState} {history : List BoardRow} {now : ℤ}
    (hinv : Inv dateParse rules b history now) (hnow : b.readerNowMs = some now) (hsettled : Settled b)
    (hopen : b.bulkOpen = false) (hout : b.bulkOutOfOrder = false) (hbegun : b.begun = false → history = []) :
    Ready dateParse rules b history := by
  refine ⟨fun now' heq => ?_, ?_, hbegun⟩
  · rw [hnow, Option.getD_some] at heq
    rw [← heq]
    exact hinv
  · rw [hopen, hout, Bool.or_false, Bool.and_false]
    refine ⟨fun _ => hsettled.sorted, fun hfresh => ?_, fun _ => rfl⟩
    -- a board that has read nothing is empty
    have hnone : b.rows = [] := List.eq_nil_iff_forall_not_mem.mpr fun r hr => by
      have hmem := hinv.keeps.read r hr
      rw [hbegun (by simpa using hfresh)] at hmem
      cases hmem
    rw [hnone]
    exact List.nil_sublist _

/-- The end of an `ingest`, after its facts are read. -/
def BoardState.finish (b : BoardState) (bulk outOfOrder caughtUp : Bool) : BoardState :=
  let b : BoardState := { b with bulkOpen := bulk && !caughtUp, bulkOutOfOrder := !caughtUp && outOfOrder }
  let b := b.compact
  if caughtUp && outOfOrder then { b with rows := b.rows.mergeSort fun x y => decide (x.tsMs ≤ y.tsMs) } else b

theorem ingest_eq (b : BoardState) (now : ℤ) (facts : List Fact) (caughtUp : Bool) :
    b.ingest dateParse now facts caughtUp =
      let bulk := !b.begun || b.bulkOpen
      let s := facts.foldl (BoardState.readFact dateParse now bulk) (b, bulk && b.bulkOutOfOrder)
      s.1.finish bulk s.2 caughtUp := rfl

/-- The rows are compacted, and sorted if they were the last of a bulk load that is out of order. -/
theorem Inv.finish {rules : List BoardRetentionRule} {b : BoardState} {history : List BoardRow} {now : ℤ}
    {bulk outOfOrder : Bool} (h : Inv dateParse rules b history now) (horder : Ordered b history bulk outOfOrder)
    (hnow : b.readerNowMs = some now) (hbegun : b.begun = false → history = []) (hbulk : bulk = false → b.begun = true)
    (caughtUp : Bool) :
    Ready dateParse rules (b.finish bulk outOfOrder caughtUp) history ∧
      (b.finish bulk outOfOrder caughtUp).readerNowMs = some now ∧
      (caughtUp = true → Settled (b.finish bulk outOfOrder caughtUp)) := by
  let b₁ : BoardState := { b with bulkOpen := bulk && !caughtUp, bulkOutOfOrder := !caughtUp && outOfOrder }
  have h₁ : Inv dateParse rules b₁ history now := h.withFlags b.readerNowMs b.begun _ _
  obtain ⟨hinv, hdropped, hsub⟩ := h₁.compact
  have hcompact := compact_eq b₁
  have hnow' : b₁.compact.readerNowMs = some now := by
    rw [hcompact]
    exact hnow
  have hbegun' : b₁.compact.begun = b.begun := by rw [hcompact]
  have hopen : b₁.compact.bulkOpen = (bulk && !caughtUp) := by rw [hcompact]
  have hout : b₁.compact.bulkOutOfOrder = (!caughtUp && outOfOrder) := by rw [hcompact]
  cases caughtUp with
  | true =>
      -- sorted now, or in order already
      have hfinish : ∃ rows : List BoardRow, b.finish bulk outOfOrder true = { b₁.compact with rows := rows } ∧
          rows.Perm b₁.compact.rows ∧ rows.Pairwise fun a c => a.before c = true := by
        cases outOfOrder with
        | true =>
            have hload : bulk = true := by
              by_contra hplaced
              cases horder.placed (by simpa using hplaced)
            refine ⟨_, rfl, List.mergeSort_perm _ _, pairwise_mergeSort_tsMs ?_⟩
            exact h.arrives.sublist (hsub.trans (horder.appended hload))
        | false => exact ⟨b₁.compact.rows, rfl, List.Perm.refl _, (horder.sorted rfl).sublist hsub⟩
      obtain ⟨rows, hfinish, hperm, hsorted⟩ := hfinish
      rw [hfinish]
      refine ⟨Ready.of_settled (hinv.permute hperm) hnow' ⟨hdropped, hsorted⟩ ?_ ?_ ?_, hnow', fun _ => ⟨hdropped, hsorted⟩⟩
      · simpa using hopen
      · simpa using hout
      · rw [← hbegun'] at hbegun
        exact hbegun
  | false =>
      have hfinish : b.finish bulk outOfOrder false = b₁.compact := rfl
      rw [hfinish]
      refine ⟨⟨fun now' heq => ?_, ?_, ?_⟩, hnow', nofun⟩
      · rw [hnow', Option.getD_some] at heq
        rw [← heq]
        exact hinv
      · have hload : (!b.begun || bulk) = bulk := by
          cases bulk with
          | true => exact Bool.or_true _
          | false => simp [hbulk rfl]
        have hlate : (bulk && outOfOrder) = outOfOrder := by
          cases bulk with
          | true => rfl
          | false => simp [horder.placed rfl]
        rw [hbegun', hopen, hout, Bool.not_false, Bool.and_true, Bool.true_and, hload, hlate]
        exact ⟨fun hfalse => (horder.sorted hfalse).sublist hsub, fun htrue => hsub.trans (horder.appended htrue),
          horder.placed⟩
      · rw [hbegun']
        exact hbegun

/-- Reading a chunk, to its end. -/
theorem Ready.ingest {rules : List BoardRetentionRule} {b : BoardState} {history : List BoardRow} {now : ℤ}
    (hrules : Supported rules) (h : Ready dateParse rules b history) (hnow : b.readerNowMs = some now)
    {facts : List Fact} (hin : InTime (history ++ numbered history.length facts)) (caughtUp : Bool) :
    let b' := b.ingest dateParse now facts caughtUp
    Ready dateParse rules b' (history ++ numbered history.length facts) ∧ b'.readerNowMs = some now ∧
      (caughtUp = true → Settled b') := by
  obtain ⟨hinv, horder, hnow', hbegun⟩ := (h.inv now (by rw [hnow]; rfl)).readFacts hrules h.order facts hin
  dsimp only
  rw [ingest_eq]
  refine hinv.finish horder (hnow'.trans hnow) (fun hfalse => ?_) (fun hfalse => ?_) caughtUp
  · rw [hbegun, Bool.or_eq_false_iff, Bool.not_eq_false'] at hfalse
    rw [h.begun hfalse.1, List.isEmpty_iff.mp hfalse.2]
    rfl
  · rw [Bool.or_eq_false_iff, Bool.not_eq_false'] at hfalse
    rw [hbegun, hfalse.1, Bool.true_or]

/-- The readers' time moves before a chunk is read. -/
theorem Ready.releasePastWindows {rules : List BoardRetentionRule} {b : BoardState} {history : List BoardRow} {later : ℤ}
    (hrules : Supported rules) (h : Ready dateParse rules b history)
    (hlater : b.readerNowMs.all (fun now => decide (now < later)) = true) (hyear : later ≤ lastFourDigitMs) :
    let b' := BoardState.releasePastWindows dateParse { b with readerNowMs := some later } later
    Ready dateParse rules b' history ∧ b'.readerNowMs = some later := by
  have hmoved : Inv dateParse rules (BoardState.releasePastWindows dateParse { b with readerNowMs := some later } later)
      history later ∧
        (BoardState.releasePastWindows dateParse { b with readerNowMs := some later } later).rows = b.rows := by
    cases hnow : b.readerNowMs with
    | none =>
        have hinv := (h.inv later (by rw [hnow]; rfl)).withFlags (some later) b.begun b.bulkOpen b.bulkOutOfOrder
        exact hinv.releasePastWindows hrules.windowed (le_refl later) hyear
    | some now =>
        have hinv := (h.inv now (by rw [hnow]; rfl)).withFlags (some later) b.begun b.bulkOpen b.bulkOutOfOrder
        rw [hnow, Option.all_some, decide_eq_true_eq] at hlater
        exact hinv.releasePastWindows hrules.windowed hlater.le hyear
  obtain ⟨kept, dropped, heq⟩ : ∃ kept dropped,
      BoardState.releasePastWindows dateParse { b with readerNowMs := some later } later = _ := releaseRows_eq _ _
  obtain ⟨hinv, hrows⟩ := hmoved
  dsimp only
  rw [heq] at hinv hrows ⊢
  refine ⟨⟨fun now hnow => ?_, ⟨?_, ?_, h.order.placed⟩, h.begun⟩, rfl⟩
  · have hsame : later = now := hnow
    rw [← hsame]
    exact hinv
  · rw [hrows]
    exact h.order.sorted
  · rw [hrows]
    exact h.order.appended

/-- One update. -/
theorem Ready.update {rules : List BoardRetentionRule} {b : BoardState} {history : List BoardRow} {input : BoardInput}
    (hrules : Supported rules) (h : Ready dateParse rules b history) (hyear : input.readerNowMs ≤ lastFourDigitMs)
    (hin : InTime (history ++ numbered history.length input.facts)) :
    let b' := b.update dateParse input
    Ready dateParse rules b' (history ++ numbered history.length input.facts) ∧
      b'.readerNowMs = some (max (b.readerNowMs.getD input.readerNowMs) input.readerNowMs) ∧
      (input.caughtUp = true → Settled b') := by
  unfold BoardState.update
  by_cases hlater : b.readerNowMs.all (fun now => decide (now < input.readerNowMs)) = true
  · obtain ⟨hready, hnow⟩ := h.releasePastWindows hrules hlater hyear
    have hmax : max (b.readerNowMs.getD input.readerNowMs) input.readerNowMs = input.readerNowMs := by
      cases hold : b.readerNowMs with
      | none => exact max_self _
      | some now =>
          rw [hold, Option.all_some, decide_eq_true_eq] at hlater
          exact max_eq_right hlater.le
    rw [if_pos hlater, hmax]
    dsimp only at hnow ⊢
    rw [hnow]
    exact hready.ingest hrules hnow hin input.caughtUp
  · rw [if_neg hlater]
    cases hnow : b.readerNowMs with
    | none =>
        rw [hnow] at hlater
        exact absurd rfl hlater
    | some now =>
        have hle : input.readerNowMs ≤ now := by
          rw [hnow] at hlater
          simpa using hlater
        simp only [hnow, Option.getD_some]
        rw [max_eq_left hle]
        exact h.ingest hrules hnow hin input.caughtUp

/-! ### Runs -/

theorem holdsAt_nil {now : ℤ} (kind : RetentionKind) : HoldsAt dateParse now [] kind none := by
  cases kind with
  | newest => exact ⟨fun _ => rfl, nofun⟩
  | first => exact ⟨fun _ => rfl, nofun⟩
  | all => rfl
  | run => exact ⟨fun _ => ⟨rfl, nofun⟩, nofun⟩
  | asof => rfl

theorem ready_start (rules : List BoardRetentionRule) : Ready dateParse rules (BoardState.start rules) [] := by
  have hstates : ∀ st ∈ (BoardState.start rules).states, st.held = ∅ := by
    intro st hst
    obtain ⟨rule, -, rfl⟩ := List.mem_map.mp hst
    rfl
  have htotal : total (BoardState.start rules).states = 0 := by
    refine Multiset.eq_zero_of_forall_notMem fun n hn => ?_
    obtain ⟨st, hst, hn⟩ := mem_total.mp hn
    rw [RuleState.heldIns, hstates st hst] at hn
    cases hn
  refine ⟨fun now _ => ?_, ⟨fun _ => List.Pairwise.nil, fun _ => List.nil_sublist _, nofun⟩, fun _ => rfl⟩
  refine ⟨?_, rfl, List.Pairwise.nil, nofun, ⟨fun pr => ?_, nofun⟩, fun st hst => ⟨fun key _ => ?_, fun key _ => ?_⟩,
    ⟨?_, List.nodup_nil, nofun, nofun, ?_, nofun, nofun⟩, nofun⟩
  · show (rules.map RuleState.start).map RuleState.rule = rules
    rw [List.map_map]
    exact List.map_id rules
  · exact ⟨fun _ => rfl, nofun⟩
  · rw [hstates st hst]
    rfl
  · rw [hstates st hst]
    exact holdsAt_nil st.rule.kind
  · rw [htotal]
    exact fun n => rfl
  · rw [htotal]
    exact nofun

theorem readersNow_snoc {inputs : List BoardInput} (input : BoardInput) (h : inputs ≠ []) :
    readersNow (inputs ++ [input]) = max (readersNow inputs) input.readerNowMs := by
  cases inputs with
  | nil => exact absurd rfl h
  | cons first inputs => simp [readersNow, List.foldl_append]

theorem historyOf_snoc (inputs : List BoardInput) (input : BoardInput) :
    historyOf (inputs ++ [input]) = historyOf inputs ++ numbered (historyOf inputs).length input.facts := by
  unfold historyOf
  rw [List.flatMap_append, numbered_append, List.flatMap_singleton, Nat.zero_add]

/-- After a run, the board is ready, at the latest time of its readers. -/
theorem ready_runFrom {rules : List BoardRetentionRule} (hrules : Supported rules) (inputs : List BoardInput)
    (hyear : ∀ input ∈ inputs, input.readerNowMs ≤ lastFourDigitMs) (hin : InTime (historyOf inputs)) :
    Ready dateParse rules (BoardState.runFrom dateParse rules inputs) (historyOf inputs) ∧
      (BoardState.runFrom dateParse rules inputs).readerNowMs = (if inputs = [] then none else some (readersNow inputs)) ∧
      (inputs.getLast?.any BoardInput.caughtUp = true → Settled (BoardState.runFrom dateParse rules inputs)) := by
  induction inputs using List.reverseRecOn with
  | nil => exact ⟨ready_start rules, rfl, nofun⟩
  | append_singleton inputs input ih =>
      rw [historyOf_snoc] at hin ⊢
      obtain ⟨hready, hnow, -⟩ := ih (fun i hi => hyear i (List.mem_append_left _ hi)) hin.of_append
      obtain ⟨hready', hnow', hsettled⟩ := hready.update hrules
        (hyear input (List.mem_append_right _ (List.mem_singleton_self input))) hin
      have hrun : BoardState.runFrom dateParse rules (inputs ++ [input]) =
          (BoardState.runFrom dateParse rules inputs).update dateParse input := by
        rw [BoardState.runFrom, List.foldl_append]
        rfl
      rw [hrun]
      refine ⟨hready', hnow'.trans ?_, fun hlast => hsettled (by simpa using hlast)⟩
      rw [hnow, if_neg (List.append_ne_nil_of_right_ne_nil _ (List.cons_ne_nil _ _))]
      by_cases hempty : inputs = []
      · rw [hempty]
        simp [readersNow]
      · rw [if_neg hempty, Option.getD_some, readersNow_snoc input hempty]

/-! ### The rows that the rules select -/

/-- The rows of a settled board are those that a rule selects. -/
theorem Inv.mem_rows_iff {rules : List BoardRetentionRule} {b : BoardState} {history : List BoardRow} {now : ℤ}
    (h : Inv dateParse rules b history now) (hsettled : Settled b) {r : BoardRow} :
    r ∈ b.rows ↔ r ∈ history ∧
      ∃ rule ∈ rules, selectsJudged dateParse rule (judgedOf history) now (r, fullRepeat history r) = true := by
  have hholds : ∀ st ∈ b.states, ∀ n, n ∈ st.heldIns ↔ ∃ e ∈ judgedOf history, e.1.ins = n ∧
      selectsJudged dateParse st.rule (judgedOf history) now e = true := by
    intro st hst n
    refine RuleState.mem_heldIns_iff (h.holds st hst) ?_
    rw [map_fst_judgedOf]
    exact h.arrives
  constructor
  · intro hr
    have hmem := h.keeps.read r hr
    have hheld : r.ins ∈ total b.states := by
      refine (h.keeps.accounted r hr).resolve_right fun hdropped => ?_
      rw [hsettled.dropped] at hdropped
      cases hdropped
    obtain ⟨st, hst, hn⟩ := mem_total.mp hheld
    obtain ⟨e, he, hins, hselects⟩ := (hholds st hst r.ins).mp hn
    obtain ⟨a, ha, rfl⟩ := List.mem_map.mp he
    rw [h.arrives.eq_of_ins ha hmem hins] at hselects
    exact ⟨hmem, st.rule, h.rules ▸ List.mem_map_of_mem hst, hselects⟩
  · rintro ⟨hmem, rule, hrule, hselects⟩
    rw [← h.rules] at hrule
    obtain ⟨st, hst, rfl⟩ := List.mem_map.mp hrule
    have hn : r.ins ∈ st.heldIns := (hholds st hst r.ins).mpr ⟨_, List.mem_map_of_mem hmem, rfl, hselects⟩
    obtain ⟨a, ha, hins⟩ := List.mem_map.mp (h.keeps.present r.ins (mem_total.mpr ⟨st, hst, hn⟩))
    rw [← h.arrives.eq_of_ins (h.keeps.read a ha) hmem hins]
    exact ha

theorem notBefore_trans (a b c : BoardRow) (hab : (!b.before a) = true) (hbc : (!c.before b) = true) :
    (!c.before a) = true := by
  rw [Bool.not_eq_true', before_eq_false_iff] at *
  omega

theorem notBefore_total (a b : BoardRow) : ((!b.before a) || (!a.before b)) = true := by
  rw [Bool.or_eq_true, Bool.not_eq_true', Bool.not_eq_true', before_eq_false_iff, before_eq_false_iff]
  omega

/-- They stand in the order of the selection. -/
theorem Inv.rows_eq_retained {rules : List BoardRetentionRule} {b : BoardState} {history : List BoardRow} {now : ℤ}
    (h : Inv dateParse rules b history now) (hsettled : Settled b) :
    b.rows = retained dateParse rules history now := by
  have hmem : ∀ r, r ∈ b.rows ↔ r ∈ retained dateParse rules history now := by
    intro r
    rw [h.mem_rows_iff hsettled, retained, List.mem_mergeSort, List.mem_filter, List.any_eq_true]
  have hnodup : (retained dateParse rules history now).Nodup :=
    (List.mergeSort_perm _ _).nodup_iff.mpr ((h.arrives.nodup_ins.of_map _).filter _)
  refine ((List.perm_ext_iff_of_nodup (h.keeps.nodup.of_map _) hnodup).mpr hmem).eq_of_pairwise
    (fun a c ha hc hac hca => ?_) (hsettled.sorted.imp fun hbefore => ?_)
    (List.pairwise_mergeSort notBefore_trans notBefore_total _)
  · refine h.arrives.eq_of_ins (h.keeps.read a ha) (h.keeps.read c ((hmem c).mpr hc)) ?_
    rw [Bool.not_eq_true', before_eq_false_iff] at hac hca
    omega
  · rw [before_iff] at hbefore
    rw [Bool.not_eq_true', before_eq_false_iff]
    omega

variable (dateParse) in
/-- After a run whose last facts have been read, the rows of the board are those that its rules select over the
whole history, and the dispositions among them are judged as over the whole history. -/
theorem retention_exact (inputs : List BoardInput) (hlast : inputs.getLast?.any BoardInput.caughtUp = true)
    (hyear : ∀ input ∈ inputs, input.readerNowMs ≤ lastFourDigitMs) (hin : InTime (historyOf inputs)) :
    let b := BoardState.runFrom dateParse BOARD_ROW_RETENTION inputs
    b.rows = retained dateParse BOARD_ROW_RETENTION (historyOf inputs) (readersNow inputs) ∧
      ∀ r ∈ b.rows, (dispositionPr r.row).isSome → b.sweepRepeats.get? r.ins = some (fullRepeat (historyOf inputs) r) := by
  obtain ⟨hready, hnow, hsettled⟩ := ready_runFrom supported_retention inputs hyear hin
  have hne : inputs ≠ [] := by
    rintro rfl
    cases hlast
  rw [if_neg hne] at hnow
  have hinv := hready.inv (readersNow inputs) (by rw [hnow]; rfl)
  exact ⟨hinv.rows_eq_retained (hsettled hlast), hinv.repeats⟩

end

/-! ### Late rows -/

/-- `Date.parse` on the first milliseconds of 1970. -/
def parseEpoch (t : Text) : Option ℤ :=
  if t = "1970-01-01T00:00:00.001Z".toList then some 1
  else if t = "1970-01-01T00:00:00.002Z".toList then some 2
  else if t = "1970-01-01T00:00:00.003Z".toList then some 3
  else none

def dispositionFact (tsMs : ℤ) (ts disposition : String) : Fact :=
  ⟨tsMs, "sweep.disposed".toList,
    [("ts".toList, .str ts.toList), ("step".toList, .str "sweep.disposed".toList), ("pr_number".toList, .num "7".toList),
      ("disposition".toList, .str disposition.toList)]⟩

/-- Two dispositions of a PR, and a change of it. -/
def repeatedDisposition : List BoardInput :=
  [⟨10, [dispositionFact 1 "1970-01-01T00:00:00.001Z" "blocked"], true⟩,
    ⟨10, [dispositionFact 2 "1970-01-01T00:00:00.002Z" "blocked", dispositionFact 3 "1970-01-01T00:00:00.003Z" "merged"],
      true⟩]

theorem retention_exact_repeated :
    (BoardState.runFrom parseEpoch BOARD_ROW_RETENTION repeatedDisposition).rows =
        retained parseEpoch BOARD_ROW_RETENTION (historyOf repeatedDisposition) (readersNow repeatedDisposition) ∧
      ((BoardState.runFrom parseEpoch BOARD_ROW_RETENTION repeatedDisposition).rows.map BoardRow.ins) = [3] := by
  refine ⟨(retention_exact parseEpoch repeatedDisposition (by decide) (by decide) ⟨?_, fun task => ?_⟩).1, by decide +kernel⟩
  · have hts : (historyOf repeatedDisposition).Pairwise fun a b => a.tsMs ≤ b.tsMs := by decide +kernel
    exact hts.imp fun hle _ _ _ => hle
  · have hnone : (historyOf repeatedDisposition).filter (fun r =>
        RUN_SPEND_STEPS.any (hasStep r.row) && decide (taskKey r.row = some task)) = [] := by
      have hsteps : ∀ r ∈ historyOf repeatedDisposition, RUN_SPEND_STEPS.any (hasStep r.row) = false := by decide +kernel
      refine List.filter_eq_nil_iff.mpr fun r hr => ?_
      rw [hsteps r hr]
      exact Bool.false_ne_true
    rw [hnone]
    intro earlier r later heq
    simp at heq

/-- The second disposition to arrive is the earlier one. -/
def lateDisposition : List BoardInput :=
  [⟨10, [dispositionFact 2 "1970-01-01T00:00:00.002Z" "blocked", dispositionFact 1 "1970-01-01T00:00:00.001Z" "blocked"],
    true⟩]

/-- The late disposition is the PR's newest change, and is not kept; the one after it repeats it, and is judged not to. -/
theorem late_disposition_loses_change :
    (BoardState.runFrom parseEpoch BOARD_ROW_RETENTION lateDisposition).rows ≠
        retained parseEpoch BOARD_ROW_RETENTION (historyOf lateDisposition) (readersNow lateDisposition) ∧
      ∃ r ∈ (BoardState.runFrom parseEpoch BOARD_ROW_RETENTION lateDisposition).rows,
        (dispositionPr r.row).isSome ∧
          (BoardState.runFrom parseEpoch BOARD_ROW_RETENTION lateDisposition).sweepRepeats.get? r.ins ≠
            some (fullRepeat (historyOf lateDisposition) r) := by
  refine ⟨fun heq => ?_, by decide +kernel⟩
  have hkept : ∃ r ∈ (historyOf lateDisposition).filter fun r => BOARD_ROW_RETENTION.any fun rule =>
      selectsJudged parseEpoch rule (judgedOf (historyOf lateDisposition)) (readersNow lateDisposition)
        (r, fullRepeat (historyOf lateDisposition) r), r.ins = 2 := by decide +kernel
  obtain ⟨r, hr, hins⟩ := hkept
  have hmem : r ∈ (BoardState.runFrom parseEpoch BOARD_ROW_RETENTION lateDisposition).rows := by
    rw [heq]
    exact List.mem_mergeSort.mpr hr
  have hrows : ∀ r ∈ (BoardState.runFrom parseEpoch BOARD_ROW_RETENTION lateDisposition).rows, r.ins ≠ 2 := by
    decide +kernel
  exact hrows r hmem hins

def runFact (tsMs : ℤ) (ts step : String) : Fact :=
  ⟨tsMs, step.toList, [("ts".toList, .str ts.toList), ("step".toList, .str step.toList),
    ("task_id".toList, .str "W1-T1".toList), ("run_id".toList, .str "run-1".toList)]⟩

/-- The start of a run arrives after its rows, when their week is over. -/
def lateStart : List BoardInput :=
  [⟨14 * DAY_MS, [runFact 2 "1970-01-01T00:00:00.002Z" "implement.done", runFact 3 "1970-01-01T00:00:00.003Z" "verdict"],
      true⟩,
    ⟨14 * DAY_MS, [runFact 1 "1970-01-01T00:00:00.001Z" "run.start"], true⟩]

/-- The rows of a run that arrived before its late start are not on the board. -/
theorem late_start_loses_row :
    (∀ r ∈ (BoardState.runFrom parseEpoch BOARD_ROW_RETENTION lateStart).rows, r.ins ≠ 1) ∧
      ∃ r ∈ retained parseEpoch BOARD_ROW_RETENTION (historyOf lateStart) (readersNow lateStart), r.ins = 1 := by
  have hkept : ∃ r ∈ (historyOf lateStart).filter fun r => BOARD_ROW_RETENTION.any fun rule =>
      selectsJudged parseEpoch rule (judgedOf (historyOf lateStart)) (readersNow lateStart)
        (r, fullRepeat (historyOf lateStart) r), r.ins = 1 := by decide +kernel
  obtain ⟨r, hr, hins⟩ := hkept
  refine ⟨by decide +kernel, r, List.mem_mergeSort.mpr hr, hins⟩

end Remudero.Board
