import Remudero.Board.Selection

/-! # What the rules hold

The rules of the board over a judged history, which is the rows read so far, each with the judgement made
when it arrived.  What a rule holds is what it selects of them (`RuleState.Holds`), which an offer and a
move of the readers' time keep (`RuleState.holds_offerRow`, `RuleState.holds_releasePast`).

The number that the board keeps for a row is the number of rules that hold it (`Counts`): what the rules
hold and let go is what they held and the rows they took (`total_offer`, `total_releasePast`), and each
release takes one away (`BoardState.releaseRows_spec`). -/

namespace Remudero.Board

open Remudero.Lib

/-! ### Hold counts -/

/-- `kept` has the number of times that each row is in `held`. -/
def Counts (kept : Record ℕ ℕ) (held : Multiset ℕ) : Prop :=
  ∀ n, kept.get? n = if held.count n = 0 then none else some (held.count n)

theorem Counts.set {kept : Record ℕ ℕ} {held : Multiset ℕ} (h : Counts kept held) {n holds : ℕ} (hn : n ∉ held)
    (hpos : 0 < holds) : Counts (kept.set n holds) (held + Multiset.replicate holds n) := by
  intro m
  by_cases hm : m = n
  · have hzero : held.count n = 0 := Multiset.count_eq_zero.mpr hn
    rw [hm, Record.get?_set_self, Multiset.count_add, Multiset.count_replicate_self, hzero, Nat.zero_add,
      if_neg (by omega)]
  · have hzero : (Multiset.replicate holds n).count m = 0 :=
      Multiset.count_eq_zero.mpr fun hmem => hm (Multiset.eq_of_mem_replicate hmem)
    rw [Record.get?_set_of_ne _ _ hm, h m, Multiset.count_add, hzero, Nat.add_zero]

namespace BoardState

/-- `b` with another count and other dropped rows. -/
def withKept (b : BoardState) (kept : Record ℕ ℕ) (dropped : List ℕ) : BoardState :=
  { b with kept := kept, dropped := dropped }

theorem release_spec (b : BoardState) {n : ℕ} {held : Multiset ℕ} (h : Counts b.kept (n ::ₘ held)) :
    ∃ kept dropped, b.release n = b.withKept kept dropped ∧ Counts kept held ∧
      ∀ m, m ∈ dropped ↔ m ∈ b.dropped ∨ m = n ∧ n ∉ held := by
  have hn := h n
  rw [Multiset.count_cons_self, if_neg (Nat.succ_ne_zero _)] at hn
  have hother : ∀ m, m ≠ n → (n ::ₘ held).count m = held.count m := fun m hm => Multiset.count_cons_of_ne hm _
  by_cases hmem : n ∈ held
  · have hpos : 0 < held.count n := Multiset.count_pos.mpr hmem
    refine ⟨b.kept.set n (held.count n), b.dropped, ?_, ?_, ?_⟩
    · unfold release
      rw [hn]
      dsimp only
      rw [if_pos (by omega)]
      rfl
    · intro m
      by_cases hm : m = n
      · rw [hm, Record.get?_set_self, if_neg (by omega)]
      · rw [Record.get?_set_of_ne _ _ hm, h m, hother m hm]
    · intro m
      simp [hmem]
  · have hzero : held.count n = 0 := Multiset.count_eq_zero.mpr hmem
    refine ⟨b.kept.filter (· ≠ n), b.dropped ++ [n], ?_, ?_, ?_⟩
    · unfold release
      rw [hn]
      dsimp only
      rw [if_neg (by omega)]
      rfl
    · intro m
      rw [Record.get?_filter]
      by_cases hm : m = n
      · rw [hm, hzero]
        simp
      · rw [if_pos (by simpa using hm), h m, hother m hm]
    · intro m
      simp [hmem]

theorem releaseRows_spec (b : BoardState) (rows : List BoardRow) {held : Multiset ℕ}
    (h : Counts b.kept (insOf rows + held)) :
    ∃ kept dropped, b.releaseRows rows = b.withKept kept dropped ∧ Counts kept held ∧
      ∀ m, m ∈ dropped ↔ m ∈ b.dropped ∨ m ∈ insOf rows ∧ m ∉ held := by
  induction rows generalizing b with
  | nil =>
      rw [insOf_nil, zero_add] at h
      exact ⟨b.kept, b.dropped, rfl, h, fun m => by simp⟩
  | cons r rows ih =>
      rw [insOf_cons, Multiset.singleton_add, Multiset.cons_add] at h
      obtain ⟨kept, dropped, heq, hcounts, hdropped⟩ := b.release_spec h
      obtain ⟨kept', dropped', heq', hcounts', hdropped'⟩ := ih (b.withKept kept dropped) hcounts
      refine ⟨kept', dropped', ?_, hcounts', ?_⟩
      · rw [releaseRows, List.foldl_cons, heq]
        exact heq'
      · intro m
        rw [hdropped' m, insOf_cons, Multiset.singleton_add, Multiset.mem_cons]
        show m ∈ dropped ∨ _ ↔ _
        rw [hdropped m, Multiset.mem_add]
        by_cases hm : m = r.ins
        · rw [hm]
          tauto
        · tauto

end BoardState

/-! ### Windows move on -/

/-- The start of the current window does not go back while the year has four digits. -/
theorem currentWindowStart_mono (window : BoardRetentionWindow) {now later start : ℤ} (hle : now ≤ later)
    (hyear : later ≤ lastFourDigitMs) (h : currentWindowStart window now = some start) :
    ∃ start', currentWindowStart window later = some start' ∧ start ≤ start' := by
  by_cases hnow : firstFourDigitMs ≤ now ∧ now ≤ lastFourDigitMs
  · have hlater : firstFourDigitMs ≤ later ∧ later ≤ lastFourDigitMs := ⟨hnow.1.trans hle, hyear⟩
    unfold currentWindowStart utcWeekStart utcDayStart at *
    rw [if_pos hnow] at h
    rw [if_pos hlater]
    split_ifs at * with hweek
    · refine ⟨_, rfl, ?_⟩
      rw [← Option.some.inj h]
      unfold DAY_MS
      dsimp only
      omega
    · refine ⟨_, rfl, ?_⟩
      rw [← Option.some.inj h]
      unfold DAY_MS
      omega
  · unfold currentWindowStart utcWeekStart utcDayStart at h
    rw [if_neg hnow] at h
    split_ifs at h
    cases h

theorem past_mono (rule : BoardRetentionRule) {now later : ℤ} (hle : now ≤ later) (hyear : later ≤ lastFourDigitMs)
    {key : RetentionKey} (h : rule.past now key = true) : rule.past later key = true := by
  unfold BoardRetentionRule.past at *
  cases hwindow : rule.window with
  | none => simp [hwindow] at h
  | some window =>
      cases hkey : key.2 with
      | none => simp [hwindow, hkey] at h
      | some start =>
          rw [hwindow, hkey] at h
          dsimp only at h ⊢
          cases start with
          | none => simp [nanLt] at h
          | some start =>
              cases hcurrent : currentWindowStart window now with
              | none => simp [nanLt, hcurrent] at h
              | some current =>
                  obtain ⟨current', hcurrent', hle'⟩ := currentWindowStart_mono window hle hyear hcurrent
                  rw [hcurrent] at h
                  rw [hcurrent']
                  simp only [nanLt, decide_eq_true_eq] at *
                  omega

/-! ### What a rule holds -/

section

variable (dateParse : Text → Option ℤ)

/-- The rows of a judged history that a rule has under a key. -/
def rowsAt (rule : BoardRetentionRule) (judged : List (BoardRow × Bool)) (key : RetentionKey) : List BoardRow :=
  (judged.filter fun e => rule.keyOf dateParse e.1.row ⟨false, e.2⟩ = some key).map Prod.fst

/-- A rule holds what it selects of the judged history, and nothing in a window that is over. -/
structure RuleState.Holds (st : RuleState) (judged : List (BoardRow × Bool)) (now : ℤ) : Prop where
  past : ∀ key, st.rule.past now key = true → st.held.get? key = none
  current : ∀ key, st.rule.past now key = false →
    HoldsAt dateParse now (rowsAt dateParse st.rule judged key) st.rule.kind (st.held.get? key)

/-- Runs and `asof` rules have no window. -/
def Windowed (rule : BoardRetentionRule) : Prop := rule.kind = .run ∨ rule.kind = .asof → rule.window = none

variable {dateParse}

theorem pastKey_eq {st : RuleState} (h : Windowed st.rule) (now : ℤ) (key : RetentionKey) :
    st.pastKey now key = st.rule.past now key := by
  have hnone : st.rule.window = none → st.rule.past now key = false := by
    intro hwindow
    simp [BoardRetentionRule.past, hwindow]
  unfold RuleState.pastKey
  cases hkind : st.rule.kind with
  | run => exact (hnone (h (.inl hkind))).symm
  | asof => exact (hnone (h (.inr hkind))).symm
  | newest => rfl
  | first => rfl
  | all => rfl

theorem rowsAt_sublist (rule : BoardRetentionRule) (judged : List (BoardRow × Bool)) (key : RetentionKey) :
    (rowsAt dateParse rule judged key).Sublist (judged.map Prod.fst) := List.filter_sublist.map _

theorem rowsAt_snoc_self {rule : BoardRetentionRule} {judged : List (BoardRow × Bool)} {e : BoardRow × Bool}
    {key : RetentionKey} (h : rule.keyOf dateParse e.1.row ⟨false, e.2⟩ = some key) :
    rowsAt dateParse rule (judged ++ [e]) key = rowsAt dateParse rule judged key ++ [e.1] := by
  simp [rowsAt, List.filter_append, h]

theorem rowsAt_snoc_of_ne {rule : BoardRetentionRule} {judged : List (BoardRow × Bool)} {e : BoardRow × Bool}
    {key : RetentionKey} (h : rule.keyOf dateParse e.1.row ⟨false, e.2⟩ ≠ some key) :
    rowsAt dateParse rule (judged ++ [e]) key = rowsAt dateParse rule judged key := by
  simp [rowsAt, List.filter_append, h]

/-- Offering a row to a rule. -/
theorem RuleState.holds_offerRow {st : RuleState} {judged : List (BoardRow × Bool)} {now : ℤ} {r : BoardRow}
    {repeated : Bool} (h : st.Holds dateParse judged now) (harrives : Arrives ((judged ++ [(r, repeated)]).map Prod.fst))
    (hstarts : st.rule.kind = .run → ∀ key, StartsInTime (rowsAt dateParse st.rule (judged ++ [(r, repeated)]) key)) :
    (st.offerRow dateParse now r ⟨false, repeated⟩).state.Holds dateParse (judged ++ [(r, repeated)]) now := by
  unfold RuleState.offerRow
  cases hkey : st.rule.keyOf dateParse r.row ⟨false, repeated⟩ with
  | none =>
      refine ⟨h.past, fun key hpast => ?_⟩
      rw [rowsAt_snoc_of_ne (by simp [hkey])]
      exact h.current key hpast
  | some k =>
      dsimp only
      by_cases hk : st.rule.past now k = true
      · rw [if_pos hk]
        refine ⟨h.past, fun key hpast => ?_⟩
        have hne : k ≠ key := by
          intro heq
          rw [heq, hpast] at hk
          cases hk
        rw [rowsAt_snoc_of_ne (by simpa [hkey] using hne)]
        exact h.current key hpast
      · rw [if_neg hk]
        refine ⟨fun key hpast => ?_, fun key hpast => ?_⟩
        · have hne : key ≠ k := by
            intro heq
            rw [← heq] at hk
            exact hk hpast
          show (st.held.set k _).get? key = none
          rw [Record.get?_set_of_ne _ _ hne]
          exact h.past key hpast
        · show HoldsAt dateParse now (rowsAt dateParse st.rule _ key) st.rule.kind ((st.held.set k _).get? key)
          by_cases heq : key = k
          · rw [heq] at hpast ⊢
            have hself : rowsAt dateParse st.rule (judged ++ [(r, repeated)]) k =
                rowsAt dateParse st.rule judged k ++ [r] := rowsAt_snoc_self hkey
            rw [Record.get?_set_self, hself]
            refine holdsAt_takeRow st.rule.kind ?_ ?_ (h.current k hpast)
            · rw [← hself]
              exact harrives.sublist (rowsAt_sublist _ _ _)
            · intro hrun
              rw [← hself]
              exact hstarts hrun k
          · rw [Record.get?_set_of_ne _ _ heq, rowsAt_snoc_of_ne (by simpa [hkey] using Ne.symm heq)]
            exact h.current key hpast

/-- Moving the readers' time. -/
theorem RuleState.holds_releasePast {st : RuleState} {judged : List (BoardRow × Bool)} {now later : ℤ}
    (hwindowed : Windowed st.rule) (h : st.Holds dateParse judged now) (hle : now ≤ later)
    (hyear : later ≤ lastFourDigitMs) (harrives : Arrives (judged.map Prod.fst)) :
    (st.releasePast dateParse later).1.Holds dateParse judged later := by
  have hget : ∀ key, (st.releasePast dateParse later).1.held.get? key =
      if st.rule.past later key then none
      else (st.held.get? key).map fun v => (RuleState.settle dateParse later st.rule.kind v).1 := by
    intro key
    unfold RuleState.releasePast
    dsimp only
    rw [Record.get?_filter, Record.get?_mapValues, pastKey_eq hwindowed]
    cases st.rule.past later key <;> rfl
  refine ⟨fun key hpast => ?_, fun key hpast => ?_⟩
  · exact (hget key).trans (if_pos hpast)
  · have hlater : st.rule.past later key = false := hpast
    have hcurrent : st.rule.past now key = false := by
      by_contra hnow
      rw [Bool.not_eq_false] at hnow
      rw [past_mono st.rule hle hyear hnow] at hlater
      cases hlater
    rw [hget key, if_neg (by simp [hlater])]
    exact holdsAt_settle hle (harrives.sublist (rowsAt_sublist _ _ _)) st.rule.kind (h.current key hcurrent)

/-! ### The rows that the rules hold -/

/-- The rows that a rule holds. -/
def RuleState.heldIns (st : RuleState) : Multiset ℕ :=
  insOf (st.held.entries.flatMap fun e => HeldOf.rows st.rule.kind e.2)

theorem insOf_flatMap {α : Type*} (f : α → List BoardRow) (l : List α) :
    insOf (l.flatMap f) = (l.map fun a => insOf (f a)).sum := by
  induction l with
  | nil => rfl
  | cons a l ih => rw [List.flatMap_cons, insOf_append, List.map_cons, List.sum_cons, ih]

/-- Setting a key replaces what was held under it. -/
theorem heldIns_set {kind : RetentionKind} (held : Record RetentionKey (HeldOf kind)) (key : RetentionKey)
    (v : HeldOf kind) :
    insOf ((held.set key v).entries.flatMap fun e => HeldOf.rows kind e.2) + insOf (heldRows kind (held.get? key)) =
      insOf (held.entries.flatMap fun e => HeldOf.rows kind e.2) + insOf (HeldOf.rows kind v) := by
  rw [insOf_flatMap, insOf_flatMap]
  cases hget : held.get? key with
  | none =>
      have hset := sum_assign_fresh (fun e : RetentionKey × HeldOf kind => insOf (HeldOf.rows kind e.2)) v hget
      show ((assign key v held.entries).map _).sum + 0 = _
      rw [add_zero, hset]
  | some u => exact sum_assign (fun e : RetentionKey × HeldOf kind => insOf (HeldOf.rows kind e.2)) v hget

variable (dateParse) in
theorem RuleState.heldIns_offerRow (st : RuleState) (now : ℤ) (r : BoardRow) (facts : BoardRowFacts) :
    (st.offerRow dateParse now r facts).state.heldIns + insOf (st.offerRow dateParse now r facts).letGo =
      st.heldIns + if (st.offerRow dateParse now r facts).holds then {r.ins} else 0 := by
  cases hkey : st.rule.keyOf dateParse r.row facts with
  | none =>
      have hoffer : st.offerRow dateParse now r facts = ⟨st, [], false⟩ := by simp [RuleState.offerRow, hkey]
      rw [hoffer]
      simp
  | some key =>
      by_cases hpast : st.rule.past now key = true
      · have hoffer : st.offerRow dateParse now r facts = ⟨st, [], false⟩ := by
          simp [RuleState.offerRow, hkey, hpast]
        rw [hoffer]
        simp
      · have hoffer : st.offerRow dateParse now r facts =
            let taken := takeRow dateParse now r st.rule.kind (st.held.get? key)
            ⟨⟨st.rule, st.held.set key taken.held⟩, taken.letGo, taken.holds⟩ := by
          simp [RuleState.offerRow, hkey, hpast]
        rw [hoffer]
        have htaken := insOf_takeRow dateParse now r st.rule.kind (st.held.get? key)
        generalize takeRow dateParse now r st.rule.kind (st.held.get? key) = taken at htaken
        have hset := heldIns_set st.held key taken.held
        -- what was under the key stands on both sides
        have hboth : RuleState.heldIns ⟨st.rule, st.held.set key taken.held⟩ + insOf taken.letGo +
            insOf (heldRows st.rule.kind (st.held.get? key)) =
              st.heldIns + (if taken.holds then {r.ins} else 0) + insOf (heldRows st.rule.kind (st.held.get? key)) :=
          calc RuleState.heldIns ⟨st.rule, st.held.set key taken.held⟩ + insOf taken.letGo +
                insOf (heldRows st.rule.kind (st.held.get? key))
              = st.heldIns + insOf (HeldOf.rows st.rule.kind taken.held) + insOf taken.letGo := by
                rw [add_right_comm]
                exact congrArg (· + insOf taken.letGo) hset
            _ = st.heldIns + (insOf (heldRows st.rule.kind (st.held.get? key)) +
                  if taken.holds then {r.ins} else 0) := by rw [add_assoc, htaken]
            _ = _ := by abel
        exact add_right_cancel hboth

variable (dateParse) in
theorem RuleState.heldIns_releasePast (st : RuleState) (now : ℤ) :
    (st.releasePast dateParse now).1.heldIns + insOf (st.releasePast dateParse now).2 = st.heldIns := by
  have hlist : ∀ l : List (RetentionKey × HeldOf st.rule.kind),
      let settled := l.map fun e => (e.1, (RuleState.settle dateParse now st.rule.kind e.2).1)
      insOf ((settled.filter fun e => !st.pastKey now e.1).flatMap fun e => HeldOf.rows st.rule.kind e.2) +
        (insOf (l.flatMap fun e => (RuleState.settle dateParse now st.rule.kind e.2).2) +
          insOf ((settled.filter fun e => st.pastKey now e.1).flatMap fun e => HeldOf.rows st.rule.kind e.2)) =
        insOf (l.flatMap fun e => HeldOf.rows st.rule.kind e.2) := by
    intro l
    dsimp only
    induction l with
    | nil => rfl
    | cons e l ih =>
        have hsettle := insOf_settle dateParse now st.rule.kind e.2
        rw [List.map_cons, List.filter_cons, List.filter_cons]
        by_cases hpast : st.pastKey now e.1 = true
        · rw [if_neg (by simp [hpast]), if_pos hpast]
          simp only [List.flatMap_cons, insOf_append]
          rw [← ih, ← hsettle]
          abel
        · rw [if_pos (by simp [hpast]), if_neg hpast]
          simp only [List.flatMap_cons, insOf_append]
          rw [← ih, ← hsettle]
          abel
  unfold RuleState.heldIns RuleState.releasePast
  dsimp only
  rw [insOf_append]
  exact hlist st.held.entries

variable (dateParse) in
/-- Whether a rule selects a row of a judged history. -/
def selectsJudged (rule : BoardRetentionRule) (judged : List (BoardRow × Bool)) (now : ℤ) (e : BoardRow × Bool) : Bool :=
  match rule.keyOf dateParse e.1.row ⟨false, e.2⟩ with
  | none => false
  | some key => !rule.past now key && selected dateParse now (rowsAt dateParse rule judged key) e.1 rule.kind

/-- A rule holds the rows that it selects. -/
theorem RuleState.mem_heldIns_iff {st : RuleState} {judged : List (BoardRow × Bool)} {now : ℤ}
    (h : st.Holds dateParse judged now) (harrives : Arrives (judged.map Prod.fst)) {n : ℕ} :
    n ∈ st.heldIns ↔ ∃ e ∈ judged, e.1.ins = n ∧ selectsJudged dateParse st.rule judged now e = true := by
  have hrows : ∀ key, Arrives (rowsAt dateParse st.rule judged key) := fun key =>
    harrives.sublist (rowsAt_sublist _ _ key)
  unfold RuleState.heldIns insOf selectsJudged
  rw [Multiset.mem_coe, List.mem_map]
  constructor
  · rintro ⟨r, hr, rfl⟩
    obtain ⟨⟨key, v⟩, hentry, hv⟩ := List.mem_flatMap.mp hr
    have hget : st.held.get? key = some v := entryOf_of_mem st.held.nodup hentry
    have hpast : st.rule.past now key = false := by
      by_contra hpast
      rw [Bool.not_eq_false] at hpast
      rw [h.past key hpast] at hget
      cases hget
    have hheld : r ∈ heldRows st.rule.kind (st.held.get? key) := by
      rw [hget]
      exact hv
    obtain ⟨hmem, hselected⟩ := (mem_heldRows_iff (hrows key) (h.current key hpast)).mp hheld
    obtain ⟨e, he, rfl⟩ := List.mem_map.mp hmem
    obtain ⟨he, hkey⟩ := List.mem_filter.mp he
    refine ⟨e, he, rfl, ?_⟩
    rw [of_decide_eq_true hkey]
    simp [hpast, hselected]
  · rintro ⟨e, he, rfl, hselects⟩
    cases hkey : st.rule.keyOf dateParse e.1.row ⟨false, e.2⟩ with
    | none => simp [hkey] at hselects
    | some key =>
        rw [hkey] at hselects
        simp only [Bool.and_eq_true, Bool.not_eq_true'] at hselects
        have hmem : e.1 ∈ rowsAt dateParse st.rule judged key :=
          List.mem_map_of_mem (List.mem_filter.mpr ⟨he, decide_eq_true hkey⟩)
        have hheld := (mem_heldRows_iff (hrows key) (h.current key hselects.1)).mpr ⟨hmem, hselects.2⟩
        cases hget : st.held.get? key with
        | none =>
            rw [hget] at hheld
            cases hheld
        | some v =>
            rw [hget] at hheld
            exact ⟨e.1, List.mem_flatMap.mpr ⟨(key, v), Record.mem_of_get? hget, hheld⟩, rfl⟩

theorem letGo_takeOne {better : BoardRow → BoardRow → Bool} {r a : BoardRow} {held : Option BoardRow}
    (h : a ∈ (takeOne better r held).2.1) : held = some a := by
  cases held with
  | none => cases h
  | some was =>
      rw [takeOne] at h
      split_ifs at h
      · rw [List.mem_singleton.mp h]
      · cases h

/-- A rule lets go only what it holds. -/
theorem letGo_takeRow {now : ℤ} {r a : BoardRow} {kind : RetentionKind} {held : Option (HeldOf kind)}
    (h : a ∈ (takeRow dateParse now r kind held).letGo) : a ∈ heldRows kind held := by
  cases kind with
  | newest =>
      cases letGo_takeOne h
      exact List.mem_singleton_self a
  | first =>
      cases letGo_takeOne h
      exact List.mem_singleton_self a
  | all => cases h
  | run =>
      have hheld : heldRows .run held = (heldRun held).anchor.toList ++ (heldRun held).members := by cases held <;> rfl
      have htaken : takeRow dateParse now r .run held = takeRun r (heldRun held) := by cases held <;> rfl
      rw [htaken] at h
      rw [hheld]
      unfold takeRun at h
      split_ifs at h
      · split at h
        · exact List.mem_append_right _ (List.mem_filter.mp h).1
        · rename_i anchor hanchor
          split_ifs at h
          · cases h
          · rw [hanchor]
            rcases List.mem_cons.mp h with rfl | h
            · exact List.mem_cons_self
            · exact List.mem_append_right _ (List.mem_filter.mp h).1
      · cases h
      · cases h
  | asof =>
      have hheld : heldRows .asof held = (held.getD [] : List BoardRow) := by cases held <;> rfl
      rw [hheld]
      exact (List.mem_filter.mp h).1

theorem RuleState.letGo_offerRow {st : RuleState} {now : ℤ} {r a : BoardRow} {facts : BoardRowFacts}
    (h : a ∈ (st.offerRow dateParse now r facts).letGo) : a.ins ∈ st.heldIns := by
  unfold RuleState.offerRow at h
  split at h
  · cases h
  · rename_i key hkey
    split_ifs at h
    · cases h
    · have hheld := letGo_takeRow h
      cases hget : st.held.get? key with
      | none =>
          rw [hget] at hheld
          cases hheld
      | some v =>
          rw [hget] at hheld
          refine List.mem_map_of_mem ?_
          exact List.mem_flatMap.mpr ⟨(key, v), Record.mem_of_get? hget, hheld⟩

/-! ### All the rules -/

/-- The rows that the rules hold, once for each rule. -/
def total (states : List RuleState) : Multiset ℕ := (states.map RuleState.heldIns).sum

theorem mem_total {states : List RuleState} {n : ℕ} : n ∈ total states ↔ ∃ st ∈ states, n ∈ st.heldIns := by
  induction states with
  | nil => simp [total]
  | cons st states ih =>
      have hcons : total (st :: states) = st.heldIns + total states := by simp [total]
      rw [hcons, Multiset.mem_add, ih]
      simp

theorem total_cons (st : RuleState) (states : List RuleState) : total (st :: states) = st.heldIns + total states := by
  simp [total]

variable (dateParse) in
theorem total_offer (states : List RuleState) (now : ℤ) (r : BoardRow) (facts : BoardRowFacts) :
    total ((states.map fun st => st.offerRow dateParse now r facts).map Offered.state) +
        insOf ((states.map fun st => st.offerRow dateParse now r facts).flatMap Offered.letGo) =
      total states +
        Multiset.replicate ((states.map fun st => st.offerRow dateParse now r facts).countP Offered.holds) r.ins := by
  induction states with
  | nil => rfl
  | cons st states ih =>
      have hst := st.heldIns_offerRow dateParse now r facts
      have hone : (if (st.offerRow dateParse now r facts).holds then ({r.ins} : Multiset ℕ) else 0) =
          Multiset.replicate (if (st.offerRow dateParse now r facts).holds then 1 else 0) r.ins := by
        split_ifs <;> simp
      rw [hone] at hst
      rw [List.map_cons, List.map_cons, List.flatMap_cons, List.countP_cons, total_cons, total_cons, insOf_append,
        Nat.add_comm, Multiset.replicate_add, add_add_add_comm, hst, ih, add_add_add_comm]

variable (dateParse) in
theorem total_releasePast (states : List RuleState) (now : ℤ) :
    total ((states.map fun st => st.releasePast dateParse now).map Prod.fst) +
      insOf ((states.map fun st => st.releasePast dateParse now).flatMap Prod.snd) = total states := by
  induction states with
  | nil => rfl
  | cons st states ih =>
      rw [List.map_cons, List.map_cons, List.flatMap_cons, total_cons, total_cons, insOf_append, add_add_add_comm,
        st.heldIns_releasePast dateParse now, ih]

end

end Remudero.Board
