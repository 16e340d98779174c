import Remudero.Board.Holds

/-! # The board and its history

The kept rows of the board against the rows that its rules select over the whole history of the facts it
has read (`retained`), and its judgement of the dispositions against the one made over that history
(`fullRepeat`).  `Inv` says what the board is after it has read a history; a move of the readers' time
(`Inv.releasePastWindows`) and a row that is read (`Inv.readRow`) keep it.

Two things are decided only when a row arrives.  A disposition is judged against the newest one of its PR,
which is the previous one only if the dispositions of a PR arrive in order; and a row of a run is not held
before its task has a `run.start`.  `InTime` says that no row comes too late for these two. -/

namespace Remudero.Board

open Remudero.Lib

/-! ### The history -/

def isUnread (f : Fact) : Bool := (BOARD_UNREAD_STEPS.map String.toList).contains f.step

/-- The rows of the facts that are read, numbered from `n` on. -/
def numbered : ℕ → List Fact → List BoardRow
  | _, [] => []
  | n, f :: facts =>
      if isUnread f then numbered n facts
      else ⟨n + 1, f.tsMs, withoutUnreadFields f.row⟩ :: numbered (n + 1) facts

/-- The rows that a run has read. -/
def historyOf (inputs : List BoardInput) : List BoardRow := numbered 0 (inputs.flatMap BoardInput.facts)

/-- The latest time of the readers of a run. -/
def readersNow : List BoardInput → ℤ
  | [] => 0
  | input :: inputs => (inputs.map BoardInput.readerNowMs).foldl max input.readerNowMs

/-- `p` is the disposition of the PR that comes right before `r`. -/
def previousDisposition (history : List BoardRow) (pr : Text) (r p : BoardRow) : Bool :=
  decide (dispositionPr p.row = some pr) && p.before r &&
    history.all fun q => !(decide (dispositionPr q.row = some pr) && q.before r && p.before q)

/-- The judgement over the whole history, in its order: `r` repeats the previous disposition of its PR. -/
def fullRepeat (history : List BoardRow) (r : BoardRow) : Bool :=
  match dispositionPr r.row with
  | none => false
  | some pr => history.any fun p => previousDisposition history pr r p &&
      Json.strictEq (p.row.field "disposition") (r.row.field "disposition")

/-- The history with the judgements over the whole of it. -/
def judgedOf (history : List BoardRow) : List (BoardRow × Bool) := history.map fun r => (r, fullRepeat history r)

section

variable (dateParse : Text → Option ℤ)

/-- The rows that the rules select over the whole history, by time and then by arrival. -/
def retained (rules : List BoardRetentionRule) (history : List BoardRow) (now : ℤ) : List BoardRow :=
  (history.filter fun r => rules.any fun rule =>
    selectsJudged dateParse rule (judgedOf history) now (r, fullRepeat history r)).mergeSort fun a b => !b.before a

/-- No row arrives too late: the dispositions of a PR arrive in order, and the first `run.start` of a task is
not earlier than a row of its run that arrived before it. -/
structure InTime (history : List BoardRow) : Prop where
  dispositions : history.Pairwise fun a b =>
    ∀ pr, dispositionPr a.row = some pr → dispositionPr b.row = some pr → a.tsMs ≤ b.tsMs
  starts : ∀ task, StartsInTime
    (history.filter fun r => RUN_SPEND_STEPS.any (hasStep r.row) && decide (taskKey r.row = some task))

end

/-! ### Numbers -/

theorem numbered_append (n : ℕ) (fs gs : List Fact) :
    numbered n (fs ++ gs) = numbered n fs ++ numbered (n + (numbered n fs).length) gs := by
  induction fs generalizing n with
  | nil => simp [numbered]
  | cons f fs ih =>
      rw [List.cons_append, numbered, numbered]
      split_ifs
      · exact ih n
      · rw [ih (n + 1), List.cons_append, List.length_cons]
        congr 2
        congr 1
        omega

/-! ### Late rows -/

theorem StartsInTime.of_append {rows more : List BoardRow} (h : StartsInTime (rows ++ more)) : StartsInTime rows := by
  intro earlier r later heq
  refine h earlier r (later ++ more) ?_
  rw [heq, List.append_assoc, List.cons_append]

theorem InTime.of_append {history more : List BoardRow} (h : InTime (history ++ more)) : InTime history where
  dispositions := (List.pairwise_append.mp h.dispositions).1
  starts := by
    intro task
    have := h.starts task
    rw [List.filter_append] at this
    exact this.of_append

theorem fullRepeat_eq_true_iff {history : List BoardRow} {r : BoardRow} :
    fullRepeat history r = true ↔ ∃ pr, dispositionPr r.row = some pr ∧ ∃ p ∈ history, dispositionPr p.row = some pr ∧
      p.before r = true ∧ (∀ q ∈ history, dispositionPr q.row = some pr → q.before r = true → p.before q = false) ∧
      Json.strictEq (p.row.field "disposition") (r.row.field "disposition") = true := by
  unfold fullRepeat
  cases hpr : dispositionPr r.row with
  | none => simp
  | some pr =>
      simp only [List.any_eq_true, previousDisposition, Bool.and_eq_true, decide_eq_true_eq, List.all_eq_true,
        Bool.not_eq_true', Bool.and_eq_false_iff, decide_eq_false_iff_not, Option.some.injEq, exists_eq_left']
      refine exists_congr fun p => and_congr_right fun _ => ?_
      rw [and_assoc, and_assoc]
      refine and_congr_right fun _ => and_congr_right fun _ => and_congr_left fun _ => ?_
      refine forall_congr' fun q => imp_congr_right fun _ => ?_
      by_cases hq : dispositionPr q.row = some pr
      · by_cases hb : q.before r = true
        · simp [hq, hb]
        · simp [hq, hb]
      · simp [hq]

/-- A row that arrives in time changes no judgement that was made. -/
theorem fullRepeat_snoc {history : List BoardRow} {r a : BoardRow} (harrives : Arrives (history ++ [r]))
    (h : InTime (history ++ [r])) (ha : a ∈ history) :
    fullRepeat (history ++ [r]) a = fullRepeat history a := by
  have hlater : ∀ pr, dispositionPr a.row = some pr → dispositionPr r.row = some pr → r.before a = false := by
    intro pr hpa hpr
    have hts := (List.pairwise_append.mp h.dispositions).2.2 a ha r (List.mem_singleton_self r) pr hpa hpr
    have hins := (List.pairwise_append.mp harrives).2.2 a ha r (List.mem_singleton_self r)
    rw [before_eq_false_iff]
    omega
  rw [Bool.eq_iff_iff, fullRepeat_eq_true_iff, fullRepeat_eq_true_iff]
  refine exists_congr fun pr => and_congr_right fun hpa => ?_
  constructor
  · rintro ⟨p, hp, hppr, hbefore, hlast, heq⟩
    rcases List.mem_append.mp hp with hp | hp
    · exact ⟨p, hp, hppr, hbefore, fun q hq => hlast q (List.mem_append_left _ hq), heq⟩
    · rw [List.mem_singleton.mp hp] at hppr hbefore
      rw [hlater pr hpa hppr] at hbefore
      cases hbefore
  · rintro ⟨p, hp, hppr, hbefore, hlast, heq⟩
    refine ⟨p, List.mem_append_left _ hp, hppr, hbefore, fun q hq hqpr hqa => ?_, heq⟩
    rcases List.mem_append.mp hq with hq | hq
    · exact hlast q hq hqpr hqa
    · rw [List.mem_singleton.mp hq] at hqpr hqa
      rw [hlater pr hpa hqpr] at hqa
      cases hqa

theorem judgedOf_snoc {history : List BoardRow} {r : BoardRow} (harrives : Arrives (history ++ [r]))
    (h : InTime (history ++ [r])) :
    judgedOf (history ++ [r]) = judgedOf history ++ [(r, fullRepeat (history ++ [r]) r)] := by
  unfold judgedOf
  rw [List.map_append, List.map_singleton]
  congr 1
  refine List.map_congr_left fun a ha => ?_
  rw [fullRepeat_snoc harrives h ha]

theorem map_fst_judgedOf (history : List BoardRow) : (judgedOf history).map Prod.fst = history := by
  simp [judgedOf, Function.comp_def]

/-! ### Dispositions -/

def dispositionsOf (history : List BoardRow) (pr : Text) : List BoardRow :=
  history.filter fun a => decide (dispositionPr a.row = some pr)

/-- The board has the newest disposition of every PR. -/
structure LastOf (last : Record Text (BoardRow × Option Json)) (history : List BoardRow) : Prop where
  newest : ∀ pr, HoldsBest newer (dispositionsOf history pr) ((last.get? pr).map Prod.fst)
  disposition : ∀ pr x, last.get? pr = some x → x.2 = x.1.row.field "disposition"

theorem dispositionsOf_snoc_self {history : List BoardRow} {r : BoardRow} {pr : Text}
    (h : dispositionPr r.row = some pr) : dispositionsOf (history ++ [r]) pr = dispositionsOf history pr ++ [r] := by
  simp [dispositionsOf, List.filter_append, h]

theorem dispositionsOf_snoc_of_ne {history : List BoardRow} {r : BoardRow} {pr : Text}
    (h : dispositionPr r.row ≠ some pr) : dispositionsOf (history ++ [r]) pr = dispositionsOf history pr := by
  simp [dispositionsOf, List.filter_append, h]

theorem holdsBest_newer {rows : List BoardRow} {r : BoardRow} {held : Option BoardRow} (h : HoldsBest newer rows held) :
    HoldsBest newer (rows ++ [r]) (some (takeOne newer r held).1) := by
  refine holdsBest_takeOne newer before_self (fun a b c hab hcb => ?_) h
  unfold newer at *
  rw [before_iff] at hcb
  rw [before_eq_false_iff] at *
  omega

theorem lastOf_sweepRepeatOf {b : BoardState} {history : List BoardRow} {r : BoardRow}
    (h : LastOf b.lastDisposition history) : LastOf (b.sweepRepeatOf r).2 (history ++ [r]) := by
  unfold BoardState.sweepRepeatOf
  cases hpr : dispositionPr r.row with
  | none =>
      refine ⟨fun pr => ?_, h.disposition⟩
      rw [dispositionsOf_snoc_of_ne (by simp [hpr])]
      exact h.newest pr
  | some pr =>
      dsimp only
      -- under the PR of the row the better of the two is kept
      have hset : ∀ last : Record Text (BoardRow × Option Json),
          (∀ pr', pr' ≠ pr → last.get? pr' = b.lastDisposition.get? pr') →
          (last.get? pr).map Prod.fst = some (takeOne newer r ((b.lastDisposition.get? pr).map Prod.fst)).1 →
          (∀ x, last.get? pr = some x → x.2 = x.1.row.field "disposition") → LastOf last (history ++ [r]) := by
        intro last hother hself hdisposition
        refine ⟨fun pr' => ?_, fun pr' x hx => ?_⟩
        · by_cases hne : pr' = pr
          · rw [hne, hself, dispositionsOf_snoc_self hpr]
            exact holdsBest_newer (h.newest pr)
          · rw [hother pr' hne, dispositionsOf_snoc_of_ne (by simpa [hpr] using Ne.symm hne)]
            exact h.newest pr'
        · by_cases hne : pr' = pr
          · rw [hne] at hx
            exact hdisposition x hx
          · rw [hother pr' hne] at hx
            exact h.disposition pr' x hx
      have hsetself : ∀ x, (b.lastDisposition.set pr (r, r.row.field "disposition")).get? pr = some x →
          x.2 = x.1.row.field "disposition" := by
        intro x hx
        rw [Record.get?_set_self] at hx
        cases hx
        rfl
      cases hlast : b.lastDisposition.get? pr with
      | none =>
          refine hset _ (fun pr' hne => Record.get?_set_of_ne _ _ hne) ?_ hsetself
          rw [Record.get?_set_self, hlast]
          rfl
      | some last =>
          dsimp only
          split_ifs with hbefore
          · refine hset _ (fun pr' hne => Record.get?_set_of_ne _ _ hne) ?_ hsetself
            rw [Record.get?_set_self, hlast]
            simp [takeOne, newer, hbefore]
          · refine hset _ (fun _ _ => rfl) ?_ fun x hx => h.disposition pr x hx
            rw [hlast]
            simp [takeOne, newer, hbefore]

/-- The judgement of a row that arrives in time is the one over the whole history. -/
theorem sweepRepeatOf_eq {b : BoardState} {history : List BoardRow} {r : BoardRow}
    (hlast : LastOf b.lastDisposition history) (harrives : Arrives (history ++ [r])) (h : InTime (history ++ [r])) :
    (b.sweepRepeatOf r).1 = fullRepeat (history ++ [r]) r := by
  have hearlier : ∀ pr, dispositionPr r.row = some pr → ∀ a ∈ history, dispositionPr a.row = some pr →
      a.before r = true := by
    intro pr hpr a ha hpa
    have hts := (List.pairwise_append.mp h.dispositions).2.2 a ha r (List.mem_singleton_self r) pr hpa hpr
    have hins := (List.pairwise_append.mp harrives).2.2 a ha r (List.mem_singleton_self r)
    rw [before_iff]
    omega
  have hself := before_self r
  rw [Bool.eq_iff_iff, fullRepeat_eq_true_iff]
  unfold BoardState.sweepRepeatOf
  cases hpr : dispositionPr r.row with
  | none => simp
  | some pr =>
      have hbest := hlast.newest pr
      cases hget : b.lastDisposition.get? pr with
      | none =>
          rw [hget] at hbest
          have hnone : dispositionsOf history pr = [] := hbest.1 rfl
          refine iff_of_false (by simp [hget]) ?_
          rintro ⟨pr', hpr', p, hp, hppr, hbefore, -⟩
          cases hpr'
          rcases List.mem_append.mp hp with hp | hp
          · have hmem : p ∈ dispositionsOf history pr := List.mem_filter.mpr ⟨hp, decide_eq_true hppr⟩
            rw [hnone] at hmem
            cases hmem
          · rw [List.mem_singleton.mp hp, hself] at hbefore
            cases hbefore
      | some last =>
          rw [hget] at hbest
          obtain ⟨hmem, hnewest⟩ := hbest.2 last.1 rfl
          obtain ⟨hmem, hlastpr⟩ := List.mem_filter.mp hmem
          have hlastpr := of_decide_eq_true hlastpr
          have hvalue := hlast.disposition pr last hget
          simp only [hget, Option.some.injEq, exists_eq_left']
          rw [hvalue]
          constructor
          · intro heq
            refine ⟨last.1, List.mem_append_left _ hmem, hlastpr, hearlier pr hpr _ hmem hlastpr, ?_, heq⟩
            intro q hq hqpr hqr
            rcases List.mem_append.mp hq with hq | hq
            · exact hnewest q (List.mem_filter.mpr ⟨hq, decide_eq_true hqpr⟩)
            · rw [List.mem_singleton.mp hq, hself] at hqr
              cases hqr
          · rintro ⟨p, hp, hppr, hbefore, hlatest, heq⟩
            rcases List.mem_append.mp hp with hp | hp
            · -- the previous one is the newest
              have h₁ := hlatest last.1 (List.mem_append_left _ hmem) hlastpr (hearlier pr hpr _ hmem hlastpr)
              have h₂ := hnewest p (List.mem_filter.mpr ⟨hp, decide_eq_true hppr⟩)
              have hsame : p = last.1 := by
                have hhistory : Arrives history := (List.pairwise_append.mp harrives).1
                refine hhistory.eq_of_ins hp hmem ?_
                unfold newer at h₂
                rw [before_eq_false_iff] at h₁ h₂
                omega
              rw [← hsame]
              exact heq
            · rw [List.mem_singleton.mp hp, hself] at hbefore
              cases hbefore

/-! ### The board -/

section

variable (dateParse : Text → Option ℤ)

/-- The counts are those of the rules, and the rows are those that a rule holds or that were dropped. -/
structure Keeps (b : BoardState) (history : List BoardRow) : Prop where
  counts : Counts b.kept (total b.states)
  nodup : (b.rows.map BoardRow.ins).Nodup
  read : ∀ r ∈ b.rows, r ∈ history
  accounted : ∀ r ∈ b.rows, r.ins ∈ total b.states ∨ r.ins ∈ b.dropped
  present : ∀ n ∈ total b.states, n ∈ b.rows.map BoardRow.ins
  dropped : ∀ n ∈ b.dropped, n ∉ total b.states
  bounded : ∀ n ∈ b.dropped, n ≤ history.length

/-- What the board is after it has read the history. -/
structure Inv (rules : List BoardRetentionRule) (b : BoardState) (history : List BoardRow) (now : ℤ) : Prop where
  rules : b.states.map RuleState.rule = rules
  ins : b.ins = history.length
  arrives : Arrives history
  numbers : ∀ a ∈ history, a.ins ≤ history.length
  last : LastOf b.lastDisposition history
  holds : ∀ st ∈ b.states, st.Holds dateParse (judgedOf history) now
  keeps : Keeps b history
  repeats : ∀ r ∈ b.rows, (dispositionPr r.row).isSome → b.sweepRepeats.get? r.ins = some (fullRepeat history r)

/-- The order of the rows: a bulk load appends them as they arrive, and notes when one is earlier than the last. -/
structure Ordered (b : BoardState) (history : List BoardRow) (bulk outOfOrder : Bool) : Prop where
  sorted : outOfOrder = false → b.rows.Pairwise fun a c => a.before c = true
  appended : bulk = true → b.rows.Sublist history
  placed : bulk = false → outOfOrder = false

variable {dateParse}

/-- Rows that are let go are held no more, or dropped. -/
theorem releaseRows_accounted {b : BoardState} {letGo : List BoardRow} {held : Multiset ℕ}
    (hcounts : Counts b.kept (held + insOf letGo))
    (haccounted : ∀ r ∈ b.rows, r.ins ∈ held + insOf letGo ∨ r.ins ∈ b.dropped)
    (hdropped : ∀ n ∈ b.dropped, n ∉ held + insOf letGo) :
    ∃ kept dropped, b.releaseRows letGo = b.withKept kept dropped ∧ Counts kept held ∧
      (∀ r ∈ b.rows, r.ins ∈ held ∨ r.ins ∈ dropped) ∧
      ∀ n ∈ dropped, n ∉ held ∧ (n ∈ b.dropped ∨ n ∈ insOf letGo) := by
  rw [add_comm] at hcounts
  obtain ⟨kept, dropped, heq, hkept, hmem⟩ := b.releaseRows_spec letGo hcounts
  refine ⟨kept, dropped, heq, hkept, fun r hr => ?_, fun n hn => ?_⟩
  · by_cases hheld : r.ins ∈ held
    · exact .inl hheld
    · refine .inr ((hmem _).mpr ?_)
      rcases haccounted r hr with hin | hin
      · exact .inr ⟨(Multiset.mem_add.mp hin).resolve_left hheld, hheld⟩
      · exact .inl hin
  · rcases (hmem n).mp hn with hn | ⟨hletGo, hn⟩
    · exact ⟨fun hheld => hdropped n hn (Multiset.mem_add.mpr (.inl hheld)), .inl hn⟩
    · exact ⟨hn, .inr hletGo⟩

theorem rule_offerRow (st : RuleState) (now : ℤ) (r : BoardRow) (facts : BoardRowFacts) :
    (st.offerRow dateParse now r facts).state.rule = st.rule := by
  unfold RuleState.offerRow
  split
  · rfl
  · split_ifs <;> rfl

theorem Keeps.le_length {b : BoardState} {history : List BoardRow} (h : Keeps b history)
    (hnumbers : ∀ a ∈ history, a.ins ≤ history.length) {n : ℕ} (hn : n ∈ total b.states) : n ≤ history.length := by
  obtain ⟨r, hr, rfl⟩ := List.mem_map.mp (h.present n hn)
  exact hnumbers r (h.read r hr)

/-- The readers' time moves. -/
theorem Inv.releasePastWindows {rules : List BoardRetentionRule} {b : BoardState} {history : List BoardRow}
    {now later : ℤ} (h : Inv dateParse rules b history now) (hwindowed : ∀ rule ∈ rules, Windowed rule)
    (hle : now ≤ later) (hyear : later ≤ lastFourDigitMs) :
    Inv dateParse rules (b.releasePastWindows dateParse later) history later ∧
      (b.releasePastWindows dateParse later).rows = b.rows := by
  have htotal := total_releasePast dateParse b.states later
  let released := b.states.map fun st => st.releasePast dateParse later
  let b₁ : BoardState := { b with states := released.map Prod.fst }
  have hcounts : Counts b₁.kept (total (released.map Prod.fst) + insOf (released.flatMap Prod.snd)) := by
    rw [htotal]
    exact h.keeps.counts
  obtain ⟨kept, dropped, heq, hkept, haccounted, hdropped⟩ := releaseRows_accounted hcounts
    (by rw [htotal]; exact h.keeps.accounted) (by rw [htotal]; exact h.keeps.dropped)
  have hb : b.releasePastWindows dateParse later = b₁.withKept kept dropped := heq
  rw [hb]
  refine ⟨⟨?_, h.ins, h.arrives, h.numbers, h.last, ?_, ⟨hkept, h.keeps.nodup, h.keeps.read, haccounted, ?_,
    fun n hn => (hdropped n hn).1, ?_⟩, h.repeats⟩, rfl⟩
  · show (released.map Prod.fst).map RuleState.rule = rules
    rw [List.map_map, List.map_map]
    exact h.rules
  · intro st hst
    obtain ⟨released', hreleased, rfl⟩ := List.mem_map.mp hst
    obtain ⟨st, hold, rfl⟩ := List.mem_map.mp hreleased
    have hrule : st.rule ∈ rules := h.rules ▸ List.mem_map_of_mem hold
    refine RuleState.holds_releasePast (hwindowed _ hrule) (h.holds st hold) hle hyear ?_
    rw [map_fst_judgedOf]
    exact h.arrives
  · intro n hn
    refine h.keeps.present n ?_
    rw [← htotal]
    exact Multiset.mem_add.mpr (.inl hn)
  · intro n hn
    rcases (hdropped n hn).2 with hn | hn
    · exact h.keeps.bounded n hn
    · refine h.keeps.le_length h.numbers ?_
      rw [← htotal]
      exact Multiset.mem_add.mpr (.inr hn)

/-- Offering the next row: what the board is before the row is placed. -/
theorem Keeps.offer {b : BoardState} {history : List BoardRow} {r : BoardRow} (h : Keeps b history)
    (hnumbers : ∀ a ∈ history, a.ins ≤ history.length) (hr : r.ins = history.length + 1) (now : ℤ)
    (facts : BoardRowFacts) :
    let offered := b.states.map fun st => st.offerRow dateParse now r facts
    let states := offered.map Offered.state
    ∃ kept dropped, b.offer dateParse now r facts =
        ({ b with states := states, kept := kept, dropped := dropped }, offered.countP Offered.holds) ∧
      Counts kept (total states) ∧ (∀ a ∈ b.rows, a.ins ∈ total states ∨ a.ins ∈ dropped) ∧
      (∀ n ∈ dropped, n ∉ total states ∧ n ≤ history.length) ∧
      (∀ n ∈ total states, n ∈ total b.states ∨ n = r.ins ∧ 0 < offered.countP Offered.holds) ∧
      (0 < offered.countP Offered.holds → r.ins ∈ total states) := by
  intro offered states
  have htotal : total states + insOf (offered.flatMap Offered.letGo) =
      total b.states + Multiset.replicate (offered.countP Offered.holds) r.ins := total_offer dateParse b.states now r facts
  have hfresh : r.ins ∉ total b.states := by
    intro hmem
    have := h.le_length hnumbers hmem
    omega
  have hletGo : r.ins ∉ insOf (offered.flatMap Offered.letGo) := by
    intro hmem
    obtain ⟨a, ha, hins⟩ := List.mem_map.mp (Multiset.mem_coe.mp hmem)
    obtain ⟨o, ho, ha⟩ := List.mem_flatMap.mp ha
    obtain ⟨st, hst, rfl⟩ := List.mem_map.mp ho
    refine hfresh (mem_total.mpr ⟨st, hst, ?_⟩)
    rw [← hins]
    exact RuleState.letGo_offerRow ha
  -- the counts with the new row, before any row is released
  let kept₁ := if 0 < offered.countP Offered.holds then b.kept.set r.ins (offered.countP Offered.holds) else b.kept
  let b₁ : BoardState := { b with states := states, kept := kept₁ }
  have hcounts : Counts b₁.kept (total states + insOf (offered.flatMap Offered.letGo)) := by
    rw [htotal]
    show Counts kept₁ _
    unfold kept₁
    split_ifs with hpos
    · exact h.counts.set hfresh hpos
    · have hzero : offered.countP Offered.holds = 0 := by omega
      rw [hzero, Multiset.replicate_zero, add_zero]
      exact h.counts
  have hout : ∀ n, n ∈ total b.states → n ∈ total states + insOf (offered.flatMap Offered.letGo) := by
    intro n hn
    rw [htotal]
    exact Multiset.mem_add.mpr (.inl hn)
  have hdropped : ∀ n ∈ b₁.dropped, n ∉ total states + insOf (offered.flatMap Offered.letGo) := by
    intro n hn hmem
    rw [htotal, Multiset.mem_add] at hmem
    rcases hmem with hmem | hmem
    · exact h.dropped n hn hmem
    · have hbound := h.bounded n hn
      have heq := Multiset.eq_of_mem_replicate hmem
      omega
  obtain ⟨kept, dropped, heq, hkept, haccounted, hdropped'⟩ := releaseRows_accounted hcounts
    (fun a ha => (h.accounted a ha).imp_left (hout _)) hdropped
  refine ⟨kept, dropped, ?_, hkept, haccounted, ?_, ?_, ?_⟩
  · have hb₁ : (if 0 < offered.countP Offered.holds then
        { b with states := states, kept := b.kept.set r.ins (offered.countP Offered.holds) }
        else { b with states := states }) = b₁ := by
      unfold b₁ kept₁
      split_ifs <;> rfl
    show ((if 0 < offered.countP Offered.holds then
        { b with states := states, kept := b.kept.set r.ins (offered.countP Offered.holds) }
        else { b with states := states }).releaseRows _, _) = _
    rw [hb₁, heq]
    rfl
  · intro n hn
    refine ⟨(hdropped' n hn).1, ?_⟩
    rcases (hdropped' n hn).2 with hn | hn
    · exact h.bounded n hn
    · obtain ⟨a, ha, rfl⟩ := List.mem_map.mp (Multiset.mem_coe.mp hn)
      obtain ⟨o, ho, ha⟩ := List.mem_flatMap.mp ha
      obtain ⟨st, hst, rfl⟩ := List.mem_map.mp ho
      exact h.le_length hnumbers (mem_total.mpr ⟨st, hst, RuleState.letGo_offerRow ha⟩)
  · intro n hn
    have hmem : n ∈ total b.states + Multiset.replicate (offered.countP Offered.holds) r.ins := by
      rw [← htotal]
      exact Multiset.mem_add.mpr (.inl hn)
    rcases Multiset.mem_add.mp hmem with hn | hn
    · exact .inl hn
    · rw [Multiset.mem_replicate] at hn
      exact .inr ⟨hn.2, Nat.pos_of_ne_zero hn.1⟩
  · intro hpos
    have hmem : r.ins ∈ total states + insOf (offered.flatMap Offered.letGo) := by
      rw [htotal]
      exact Multiset.mem_add.mpr (.inr (Multiset.mem_replicate.mpr ⟨by omega, rfl⟩))
    exact (Multiset.mem_add.mp hmem).resolve_right hletGo

theorem rdropWhile_append_rtakeWhile {α : Type*} (p : α → Bool) (l : List α) :
    l.rdropWhile p ++ l.rtakeWhile p = l := by
  unfold List.rdropWhile List.rtakeWhile
  rw [← List.reverse_append, List.takeWhile_append_dropWhile, List.reverse_reverse]

theorem rows_place (b : BoardState) (r : BoardRow) (bulk : Bool) : (b.place r bulk).rows.Perm (r :: b.rows) := by
  unfold BoardState.place
  split_ifs
  · exact List.perm_append_singleton r b.rows
  · refine List.perm_middle.trans (List.Perm.cons r ?_)
    rw [rdropWhile_append_rtakeWhile]

theorem place_eq (b : BoardState) (r : BoardRow) (bulk : Bool) :
    b.place r bulk = { b with rows := (b.place r bulk).rows } := by
  unfold BoardState.place
  split_ifs <;> rfl

/-- No row of a sorted list is later than the last one. -/
theorem tsMs_le_of_getLast {rows : List BoardRow} (hsorted : rows.Pairwise fun a c => a.before c = true) {t : ℤ}
    (hlast : ∀ hne : rows ≠ [], (rows.getLast hne).tsMs ≤ t) {a : BoardRow} (ha : a ∈ rows) : a.tsMs ≤ t := by
  have hne := List.ne_nil_of_mem ha
  have hle := hlast hne
  rw [← List.dropLast_append_getLast hne] at ha hsorted
  rcases List.mem_append.mp ha with ha | ha
  · have hbefore := (List.pairwise_append.mp hsorted).2.2 a ha _ (List.mem_singleton_self _)
    rw [before_iff] at hbefore
    omega
  · rw [List.mem_singleton.mp ha]
    exact hle

/-- A row is placed in its order, or appended to a bulk load. -/
theorem Ordered.place {b : BoardState} {history : List BoardRow} {bulk outOfOrder : Bool} {r : BoardRow}
    (h : Ordered b history bulk outOfOrder) (hfresh : ∀ a ∈ b.rows, a.ins < r.ins) :
    Ordered (b.place r bulk) (history ++ [r]) bulk
      (outOfOrder || (bulk && b.rows.getLast?.any fun last => decide (r.tsMs < last.tsMs))) := by
  cases bulk with
  | true =>
      refine ⟨fun hout => ?_, fun _ => (h.appended rfl).append_right [r], nofun⟩
      rw [Bool.or_eq_false_iff, Bool.true_and] at hout
      have hsorted := h.sorted hout.1
      show (b.rows ++ [r]).Pairwise _
      refine List.pairwise_append.mpr ⟨hsorted, List.pairwise_singleton _ _, fun a ha c hc => ?_⟩
      have hle : a.tsMs ≤ r.tsMs := by
        refine tsMs_le_of_getLast hsorted (fun hne => ?_) ha
        rw [List.getLast?_eq_some_getLast hne] at hout
        simpa using hout.2
      have hins := hfresh a ha
      rw [List.mem_singleton.mp hc, before_iff]
      omega
  | false =>
      refine ⟨fun _ => ?_, nofun, fun _ => by simpa using h.placed rfl⟩
      have hsorted := h.sorted (h.placed rfl)
      let later := fun a : BoardRow => decide (r.tsMs < a.tsMs)
      have hsplit := rdropWhile_append_rtakeWhile later b.rows
      rw [← hsplit] at hsorted
      obtain ⟨hleft, hright, hcross⟩ := List.pairwise_append.mp hsorted
      show (b.rows.rdropWhile later ++ r :: b.rows.rtakeWhile later).Pairwise _
      refine List.pairwise_append.mpr ⟨hleft, List.pairwise_cons.mpr ⟨fun c hc => ?_, hright⟩, fun a ha c hc => ?_⟩
      · have hlater : r.tsMs < c.tsMs := by simpa [later] using List.mem_rtakeWhile_imp hc
        rw [before_iff]
        omega
      · rcases List.mem_cons.mp hc with rfl | hc
        · have hle : a.tsMs ≤ c.tsMs := by
            refine tsMs_le_of_getLast hleft (fun hne => ?_) ha
            simpa [later] using List.rdropWhile_last_not later b.rows hne
          have hins := hfresh a (hsplit ▸ List.mem_append_left _ ha)
          rw [before_iff]
          omega
        · exact hcross a ha c hc

/-! ### Reading a fact -/

theorem keyOf_runRule (row : Row) (facts : BoardRowFacts) :
    runRule.keyOf dateParse row facts =
      if RUN_SPEND_STEPS.any (hasStep row) then (taskKey row).map fun task => (task, none) else none := by
  unfold BoardRetentionRule.keyOf
  by_cases hstep : RUN_SPEND_STEPS.any (hasStep row) = true
  · simp only [runRule, Option.all_some, hstep, if_true, keyIf]
    cases taskKey row <;> rfl
  · simp only [runRule, Option.all_some, hstep, Bool.false_eq_true, if_false]

theorem startsInTime_rowsAt {judged : List (BoardRow × Bool)} (h : InTime (judged.map Prod.fst)) (key : RetentionKey) :
    StartsInTime (rowsAt dateParse runRule judged key) := by
  obtain ⟨task, window⟩ := key
  cases window with
  | none =>
      have hrows : rowsAt dateParse runRule judged (task, none) = (judged.map Prod.fst).filter fun r =>
          RUN_SPEND_STEPS.any (hasStep r.row) && decide (taskKey r.row = some task) := by
        rw [List.filter_map]
        refine congrArg (List.map Prod.fst) (List.filter_congr fun e _ => ?_)
        rw [keyOf_runRule, Function.comp_apply]
        by_cases hstep : RUN_SPEND_STEPS.any (hasStep e.1.row) = true
        · rw [if_pos hstep, hstep, Bool.true_and]
          cases taskKey e.1.row <;> simp
        · rw [if_neg hstep]
          simp [hstep]
      rw [hrows]
      exact h.starts task
  | some window =>
      have hrows : rowsAt dateParse runRule judged (task, some window) = [] := by
        unfold rowsAt
        rw [List.map_eq_nil_iff, List.filter_eq_nil_iff]
        intro e _ hkey
        have hkey := of_decide_eq_true hkey
        rw [keyOf_runRule] at hkey
        split_ifs at hkey
        cases htask : taskKey e.1.row <;> simp [htask] at hkey
      rw [hrows]
      intro earlier r later heq
      simp at heq

/-- The rules that the results are about: only the one of the runs is of its kind, and it has no window. -/
structure Supported (rules : List BoardRetentionRule) : Prop where
  windowed : ∀ rule ∈ rules, Windowed rule
  runs : ∀ rule ∈ rules, rule.kind = .run → rule = runRule

theorem supported_retention : Supported BOARD_ROW_RETENTION where
  windowed := by
    simp [BOARD_ROW_RETENTION, windowRules, newestRule, runRule, Windowed]
  runs := by
    simp [BOARD_ROW_RETENTION, windowRules, newestRule, runRule]

/-- After the offer of a row that arrives in time, every rule holds what it selects. -/
theorem Inv.holds_offered {rules : List BoardRetentionRule} {b : BoardState} {history : List BoardRow} {now : ℤ}
    {r : BoardRow} (hrules : Supported rules) (h : Inv dateParse rules b history now)
    (harrives : Arrives (history ++ [r])) (hin : InTime (history ++ [r])) :
    ∀ st ∈ (b.states.map fun st => st.offerRow dateParse now r ⟨false, fullRepeat (history ++ [r]) r⟩).map Offered.state,
      st.Holds dateParse (judgedOf (history ++ [r])) now := by
  intro st hst
  obtain ⟨o, ho, rfl⟩ := List.mem_map.mp hst
  obtain ⟨st, hold, rfl⟩ := List.mem_map.mp ho
  have hrule : st.rule ∈ rules := h.rules ▸ List.mem_map_of_mem hold
  have hjudged := judgedOf_snoc harrives hin
  rw [hjudged]
  refine RuleState.holds_offerRow (h.holds st hold) ?_ fun hrun key => ?_
  · rw [← hjudged, map_fst_judgedOf]
    exact harrives
  · rw [hrules.runs _ hrule hrun]
    refine startsInTime_rowsAt ?_ key
    rw [← hjudged, map_fst_judgedOf]
    exact hin

/-- The next row, read and offered, is on the board if a rule holds it. -/
theorem Inv.readRow {rules : List BoardRetentionRule} {b : BoardState} {history : List BoardRow} {now : ℤ}
    {r : BoardRow} {bulk outOfOrder : Bool} (hrules : Supported rules) (h : Inv dateParse rules b history now)
    (horder : Ordered b history bulk outOfOrder) (hr : r.ins = history.length + 1) (hin : InTime (history ++ [r])) :
    let repeated := (b.sweepRepeatOf r).1
    let b₁ : BoardState := { b with ins := r.ins, lastDisposition := (b.sweepRepeatOf r).2 }
    let b₂ := (b₁.offer dateParse now r ⟨false, repeated⟩).1
    let b₃ : BoardState := if (dispositionPr r.row).isSome then
      { b₂ with sweepRepeats := b₂.sweepRepeats.set r.ins repeated } else b₂
    if 0 < (b₁.offer dateParse now r ⟨false, repeated⟩).2 then
      Inv dateParse rules (b₃.place r bulk) (history ++ [r]) now ∧ Ordered (b₃.place r bulk) (history ++ [r]) bulk
        (outOfOrder || (bulk && b₃.rows.getLast?.any fun last => decide (r.tsMs < last.tsMs)))
    else Inv dateParse rules b₂ (history ++ [r]) now ∧ Ordered b₂ (history ++ [r]) bulk outOfOrder := by
  have hlt : ∀ a ∈ history, a.ins < r.ins := fun a ha => by
    have := h.numbers a ha
    omega
  have harrives : Arrives (history ++ [r]) := arrives_snoc h.arrives hlt
  have hlength : (history ++ [r]).length = r.ins := by rw [List.length_append, List.length_singleton, hr]
  have hnumbers : ∀ a ∈ history ++ [r], a.ins ≤ (history ++ [r]).length := by
    intro a ha
    rw [hlength]
    rcases List.mem_append.mp ha with ha | ha
    · exact (hlt a ha).le
    · rw [List.mem_singleton.mp ha]
  have hholds := h.holds_offered hrules harrives hin
  have hlast : LastOf (b.sweepRepeatOf r).2 (history ++ [r]) := lastOf_sweepRepeatOf h.last
  have hrepeats : ∀ a ∈ b.rows, (dispositionPr a.row).isSome →
      b.sweepRepeats.get? a.ins = some (fullRepeat (history ++ [r]) a) := by
    intro a ha hpr
    rw [fullRepeat_snoc harrives hin (h.keeps.read a ha)]
    exact h.repeats a ha hpr
  intro repeated b₁
  have hrepeated : repeated = fullRepeat (history ++ [r]) r := sweepRepeatOf_eq h.last harrives hin
  have hkeeps : Keeps b₁ history := ⟨h.keeps.counts, h.keeps.nodup, h.keeps.read, h.keeps.accounted, h.keeps.present,
    h.keeps.dropped, h.keeps.bounded⟩
  obtain ⟨kept, dropped, heq, hcounts, haccounted, hdropped, hsub, hself⟩ :=
    hkeeps.offer h.numbers hr now ⟨false, repeated⟩
  rw [← hrepeated] at hholds
  have hstates : ((b₁.states.map fun st => st.offerRow dateParse now r ⟨false, repeated⟩).map Offered.state).map
      RuleState.rule = rules := by
    rw [List.map_map, List.map_map, ← h.rules]
    exact List.map_congr_left fun st _ => rule_offerRow st now r _
  rw [heq]
  dsimp only
  generalize (b₁.states.map fun st => st.offerRow dateParse now r ⟨false, repeated⟩).map Offered.state = states at *
  generalize (b₁.states.map fun st => st.offerRow dateParse now r ⟨false, repeated⟩).countP Offered.holds = holds at *
  have hbounded : ∀ n ∈ dropped, n ≤ (history ++ [r]).length := by
    intro n hn
    have := (hdropped n hn).2
    omega
  -- the row is placed, with the judgements `repeats`
  have hplaced : ∀ repeats : Record ℕ Bool, 0 < holds →
      (∀ a ∈ b.rows, repeats.get? a.ins = b.sweepRepeats.get? a.ins) →
      ((dispositionPr r.row).isSome → repeats.get? r.ins = some repeated) →
      let c : BoardState :=
        { b₁ with states := states, kept := kept, dropped := dropped, sweepRepeats := repeats }
      Inv dateParse rules (c.place r bulk) (history ++ [r]) now ∧ Ordered (c.place r bulk) (history ++ [r]) bulk
        (outOfOrder || (bulk && c.rows.getLast?.any fun last => decide (r.tsMs < last.tsMs))) := by
    intro repeats hpos hothers hown c
    have hrows : (c.place r bulk).rows.Perm (r :: b.rows) := rows_place c r bulk
    have hmem : ∀ a ∈ (c.place r bulk).rows, a = r ∨ a ∈ b.rows := fun a ha => List.mem_cons.mp (hrows.subset ha)
    have horder' : Ordered c history bulk outOfOrder := ⟨horder.sorted, horder.appended, horder.placed⟩
    refine ⟨?_, horder'.place fun a ha => hlt a (h.keeps.read a ha)⟩
    rw [place_eq]
    refine ⟨hstates, hlength.symm, harrives, hnumbers, hlast, hholds, ⟨hcounts, ?_, ?_, ?_, ?_,
      fun n hn => (hdropped n hn).1, hbounded⟩, ?_⟩
    · refine (hrows.map BoardRow.ins).nodup_iff.mpr (List.nodup_cons.mpr ⟨fun hin => ?_, h.keeps.nodup⟩)
      obtain ⟨a, ha, heq⟩ := List.mem_map.mp hin
      have := hlt a (h.keeps.read a ha)
      omega
    · intro a ha
      rcases hmem a ha with rfl | ha
      · exact List.mem_append_right _ (List.mem_singleton_self a)
      · exact List.mem_append_left _ (h.keeps.read a ha)
    · intro a ha
      rcases hmem a ha with rfl | ha
      · exact .inl (hself hpos)
      · exact haccounted a ha
    · intro n hn
      refine (hrows.map BoardRow.ins).mem_iff.mpr (List.mem_cons.mpr ?_)
      rcases hsub n hn with hn | ⟨hn, -⟩
      · exact .inr (h.keeps.present n hn)
      · exact .inl hn
    · intro a ha hpr
      rcases hmem a ha with rfl | ha
      · rw [← hrepeated]
        exact hown hpr
      · exact (hothers a ha).trans (hrepeats a ha hpr)
  split_ifs with hpos hpr
  · refine hplaced (b.sweepRepeats.set r.ins repeated) hpos (fun a ha => ?_) fun _ => Record.get?_set_self _ _ _
    have := hlt a (h.keeps.read a ha)
    exact Record.get?_set_of_ne _ _ (by omega)
  · exact hplaced b.sweepRepeats hpos (fun _ _ => rfl) fun hsome => absurd hsome hpr
  · refine ⟨⟨hstates, hlength.symm, harrives, hnumbers, hlast, hholds, ⟨hcounts, h.keeps.nodup, ?_, haccounted, ?_,
      fun n hn => (hdropped n hn).1, hbounded⟩, hrepeats⟩, ⟨horder.sorted, ?_, horder.placed⟩⟩
    · intro a ha
      exact List.mem_append_left _ (h.keeps.read a ha)
    · intro n hn
      rcases hsub n hn with hn | ⟨-, hpos'⟩
      · exact h.keeps.present n hn
      · exact absurd hpos' hpos
    · intro hbulk
      exact (horder.appended hbulk).trans (List.sublist_append_left _ _)

end

end Remudero.Board
