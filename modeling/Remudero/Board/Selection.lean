import Remudero.Board.Retention

/-! # What the rules select

The rows that the retention rules select over a whole history, in its own terms: of the rows that a rule
has under one key, `selected` are the last or the first, all of them, those from the newest `run.start`
on, or the latest up to now and every later one.

Offered row by row in any order, what a rule holds under a key is what its rows select (`HoldsAt`,
`holdsAt_takeRow`), also after the readers' time has moved (`holdsAt_settle`).  The one kind for which
the order matters is `run`: a row that arrives when its task has no `run.start` yet is not held, so the
first `run.start` must not be earlier than it (`StartsInTime`). -/

namespace Remudero.Board

open Remudero.Lib

/-! ### The order of the rows -/

theorem before_iff {a b : BoardRow} :
    a.before b = true ↔ a.tsMs < b.tsMs ∨ a.tsMs = b.tsMs ∧ a.ins < b.ins := by
  simp [BoardRow.before]

theorem before_eq_false_iff {a b : BoardRow} :
    a.before b = false ↔ b.tsMs < a.tsMs ∨ a.tsMs = b.tsMs ∧ b.ins ≤ a.ins := by
  rw [← Bool.not_eq_true, before_iff]
  omega

/-- Rows in the order in which they arrive. -/
abbrev Arrives (rows : List BoardRow) : Prop := rows.Pairwise fun a b => a.ins < b.ins

theorem Arrives.nodup_ins {rows : List BoardRow} (h : Arrives rows) : (rows.map BoardRow.ins).Nodup :=
  List.pairwise_map.mpr (h.imp fun hlt => ne_of_lt hlt)

theorem Arrives.eq_of_ins {rows : List BoardRow} (h : Arrives rows) {a b : BoardRow} (ha : a ∈ rows) (hb : b ∈ rows)
    (hins : a.ins = b.ins) : a = b := List.inj_on_of_nodup_map h.nodup_ins ha hb hins

/-! ### Selection under a key -/

section

variable (dateParse : Text → Option ℤ)

/-- By time, then by arrival. -/
def asofLe (a b : BoardRow) : Bool :=
  let s := (tsTime dateParse a.row).getD 0
  let t := (tsTime dateParse b.row).getD 0
  decide (s < t ∨ s = t ∧ a.ins ≤ b.ins)

/-- Whether a rule of a kind selects `r` among the rows it has under one key. -/
def selected (now : ℤ) (rows : List BoardRow) (r : BoardRow) : RetentionKind → Bool
  | .newest => rows.all fun a => !r.before a
  | .first => rows.all fun a => !a.before r
  | .all => true
  | .run => rows.any fun anchor => isRunStart anchor &&
      (rows.all fun a => !(isRunStart a && anchor.before a)) && (decide (anchor.ins = r.ins) || anchor.before r)
  | .asof => !upTo dateParse now r || rows.all fun a => !upTo dateParse now a || asofLe dateParse a r

/-- The first `run.start` to arrive is not earlier than a row that arrived before it. -/
def StartsInTime (rows : List BoardRow) : Prop :=
  ∀ earlier r later, rows = earlier ++ r :: later → isRunStart r = true → (∀ a ∈ earlier, isRunStart a = false) →
    ∀ a ∈ earlier, a.tsMs ≤ r.tsMs

/-- The rows that are held under a key. -/
def heldRows (kind : RetentionKind) (held : Option (HeldOf kind)) : List BoardRow :=
  (held.map (HeldOf.rows kind)).getD []

/-- The run that is held under a key. -/
def heldRun (held : Option (HeldOf .run)) : RunHeld :=
  match held with
  | none => ⟨none, []⟩
  | some (run : RunHeld) => run

/-- The best of the rows is held. -/
def HoldsBest (better : BoardRow → BoardRow → Bool) (rows : List BoardRow) (held : Option BoardRow) : Prop :=
  (held = none → rows = []) ∧ ∀ w, held = some w → w ∈ rows ∧ ∀ a ∈ rows, better a w = false

/-- `anchor` is the newest `run.start` of the rows. -/
structure Anchors (rows : List BoardRow) (anchor : BoardRow) : Prop where
  mem : anchor ∈ rows
  isStart : isRunStart anchor = true
  newest : ∀ a ∈ rows, isRunStart a = true → anchor.before a = false

/-- The newest `run.start` of the rows is held with what is after it. -/
structure HoldsRun (rows : List BoardRow) (run : RunHeld) : Prop where
  unanchored : run.anchor = none → run.members = [] ∧ ∀ a ∈ rows, isRunStart a = false
  anchored : ∀ anchor, run.anchor = some anchor →
    Anchors rows anchor ∧ run.members = rows.filter fun a => !isRunStart a && anchor.before a

/-- What a rule of a kind holds under a key is what the rows of the key select. -/
def HoldsAt (now : ℤ) (rows : List BoardRow) : (kind : RetentionKind) → Option (HeldOf kind) → Prop
  | .newest, held => HoldsBest newer rows held
  | .first, held => HoldsBest earlier rows held
  | .all, held => heldRows .all held = rows
  | .run, held => HoldsRun rows (heldRun held)
  | .asof, held => heldRows .asof held = rows.filter fun r => selected dateParse now rows r .asof

variable {dateParse}

/-! ### Latest rows -/

theorem asofLe_iff {a b : BoardRow} :
    asofLe dateParse a b = true ↔ (tsTime dateParse a.row).getD 0 < (tsTime dateParse b.row).getD 0 ∨
      (tsTime dateParse a.row).getD 0 = (tsTime dateParse b.row).getD 0 ∧ a.ins ≤ b.ins := by
  simp [asofLe]

theorem asofLe_refl (a : BoardRow) : asofLe dateParse a a = true := asofLe_iff.mpr (by omega)

theorem asofLe_trans {a b c : BoardRow} (hab : asofLe dateParse a b = true) (hbc : asofLe dateParse b c = true) :
    asofLe dateParse a c = true := by
  rw [asofLe_iff] at *
  omega

variable (dateParse) in
/-- The latest of rows that arrive in order is one after which none comes. -/
theorem latestOf_spec {rows : List BoardRow} (h : Arrives rows) :
    (latestOf dateParse rows = none → rows = []) ∧
      ∀ a, latestOf dateParse rows = some a → a ∈ rows ∧ ∀ b ∈ rows, asofLe dateParse b a = true := by
  induction rows using List.reverseRecOn with
  | nil => exact ⟨fun _ => rfl, fun a ha => absurd ha (Option.some_ne_none a).symm⟩
  | append_singleton rows r ih =>
      obtain ⟨hrows, -, hlt⟩ := List.pairwise_append.mp h
      obtain ⟨hnone, hsome⟩ := ih hrows
      have hstep : latestOf dateParse (rows ++ [r]) = (latestOf dateParse rows).elim (some r) fun a =>
          if (tsTime dateParse a.row).getD 0 ≤ (tsTime dateParse r.row).getD 0 then some r else some a := by
        unfold latestOf
        rw [List.foldl_append]
        cases rows.foldl _ none <;> rfl
      cases hlatest : latestOf dateParse rows with
      | none =>
          rw [hstep, hlatest, hnone hlatest]
          refine ⟨fun hno => absurd hno (Option.some_ne_none r), ?_⟩
          intro a ha
          cases ha
          exact ⟨List.mem_singleton_self r, fun b hb => List.mem_singleton.mp hb ▸ asofLe_refl _⟩
      | some m =>
          obtain ⟨hm, hmax⟩ := hsome m hlatest
          have hmr := hlt m hm r (List.mem_singleton_self r)
          rw [hstep, hlatest, Option.elim_some]
          split_ifs with hle
          · refine ⟨False.elim, ?_⟩
            intro a ha
            cases ha
            have hmr' : asofLe dateParse m r = true := asofLe_iff.mpr (by omega)
            refine ⟨by simp, fun b hb => ?_⟩
            rcases List.mem_append.mp hb with hb | hb
            · exact asofLe_trans (hmax b hb) hmr'
            · exact List.mem_singleton.mp hb ▸ asofLe_refl _
          · refine ⟨False.elim, ?_⟩
            intro a ha
            cases ha
            have hrm : asofLe dateParse r m = true := asofLe_iff.mpr (by omega)
            refine ⟨List.mem_append_left _ hm, fun b hb => ?_⟩
            rcases List.mem_append.mp hb with hb | hb
            · exact hmax b hb
            · exact List.mem_singleton.mp hb ▸ hrm

theorem selected_asof_iff {now : ℤ} {rows : List BoardRow} {r : BoardRow} :
    selected dateParse now rows r .asof = true ↔
      (upTo dateParse now r = true → ∀ a ∈ rows, upTo dateParse now a = true → asofLe dateParse a r = true) := by
  simp only [selected, Bool.or_eq_true, Bool.not_eq_true', List.all_eq_true, ← Bool.not_eq_true, imp_iff_not_or]

/-- An `asof` rule keeps what it selects of the rows it has. -/
theorem asofKeeps_eq {now : ℤ} {rows : List BoardRow} (h : Arrives rows) {r : BoardRow} (hr : r ∈ rows) :
    asofKeeps dateParse now rows r = selected dateParse now rows r .asof := by
  have hlatest := latestOf_spec dateParse (h.filter (upTo dateParse now))
  rw [Bool.eq_iff_iff, selected_asof_iff]
  unfold asofKeeps
  rw [Bool.or_eq_true, Bool.not_eq_true', ← Bool.not_eq_true, ← imp_iff_not_or]
  refine imp_congr_right fun hup => ?_
  have hmem : r ∈ rows.filter (upTo dateParse now) := List.mem_filter.mpr ⟨hr, hup⟩
  cases hm : latestOf dateParse (rows.filter (upTo dateParse now)) with
  | none =>
      rw [hlatest.1 hm] at hmem
      cases hmem
  | some m =>
      obtain ⟨hmrows, hmax⟩ := hlatest.2 m hm
      simp only [Option.any_some, decide_eq_true_eq]
      constructor
      · intro hins a ha hupa
        have hmr : m = r := h.eq_of_ins (List.mem_filter.mp hmrows).1 hr hins
        exact hmr ▸ hmax a (List.mem_filter.mpr ⟨ha, hupa⟩)
      · intro hall
        have hmr := hall m (List.mem_filter.mp hmrows).1 (List.mem_filter.mp hmrows).2
        have hrm := hmax r hmem
        rw [asofLe_iff] at hmr hrm
        omega

theorem selected_asof_sub {now : ℤ} {few rows : List BoardRow} (h : ∀ a ∈ few, a ∈ rows) {r : BoardRow}
    (hr : selected dateParse now rows r .asof = true) : selected dateParse now few r .asof = true := by
  rw [selected_asof_iff] at *
  intro hup a ha
  exact hr hup a (h a ha)

/-- A row up to now is not after one that is selected. -/
theorem exists_selected {now : ℤ} {rows : List BoardRow} (h : Arrives rows) {a : BoardRow} (ha : a ∈ rows)
    (hup : upTo dateParse now a = true) :
    ∃ m ∈ rows.filter fun r => selected dateParse now rows r .asof,
      upTo dateParse now m = true ∧ asofLe dateParse a m = true := by
  have hlatest := latestOf_spec dateParse (h.filter (upTo dateParse now))
  have hmem : a ∈ rows.filter (upTo dateParse now) := List.mem_filter.mpr ⟨ha, hup⟩
  cases hm : latestOf dateParse (rows.filter (upTo dateParse now)) with
  | none =>
      rw [hlatest.1 hm] at hmem
      cases hmem
  | some m =>
      obtain ⟨hmrows, hmax⟩ := hlatest.2 m hm
      obtain ⟨hmrows, hmup⟩ := List.mem_filter.mp hmrows
      refine ⟨m, List.mem_filter.mpr ⟨hmrows, selected_asof_iff.mpr fun _ b hb hbup => ?_⟩, hmup, hmax a hmem⟩
      exact hmax b (List.mem_filter.mpr ⟨hb, hbup⟩)

variable (dateParse) in
/-- Rows that no row up to now is after select like the whole. -/
theorem selected_asof_of_cofinal (now : ℤ) {few rows : List BoardRow} (hsub : ∀ a ∈ few, a ∈ rows)
    (hcofinal : ∀ a ∈ rows, upTo dateParse now a = true →
      ∃ m ∈ few, upTo dateParse now m = true ∧ asofLe dateParse a m = true) (r : BoardRow) :
    selected dateParse now few r .asof = selected dateParse now rows r .asof := by
  rw [Bool.eq_iff_iff]
  refine ⟨?_, selected_asof_sub hsub⟩
  rw [selected_asof_iff, selected_asof_iff]
  intro h hup a ha hupa
  obtain ⟨m, hm, hmup, ham⟩ := hcofinal a ha hupa
  exact asofLe_trans ham (h hup m hm hmup)

theorem filter_filter_of_imp {α : Type*} {p q : α → Bool} {l : List α} (h : ∀ a ∈ l, p a = true → q a = true) :
    (l.filter q).filter p = l.filter p := by
  rw [List.filter_filter]
  refine List.filter_congr fun a ha => ?_
  by_cases hp : p a = true
  · rw [hp, h a ha hp]
    rfl
  · rw [Bool.not_eq_true] at hp
    rw [hp, Bool.false_and]

/-! ### One more row -/

theorem arrives_snoc {rows : List BoardRow} {r : BoardRow} (h : Arrives rows) (hr : ∀ a ∈ rows, a.ins < r.ins) :
    Arrives (rows ++ [r]) := by
  refine List.pairwise_append.mpr ⟨h, List.pairwise_singleton _ _, ?_⟩
  intro a ha b hb
  rw [List.mem_singleton.mp hb]
  exact hr a ha

theorem holdsAt_takeRow_asof {now : ℤ} {rows : List BoardRow} {r : BoardRow} {held : Option (HeldOf .asof)}
    (harrives : Arrives (rows ++ [r])) (h : HoldsAt dateParse now rows .asof held) :
    HoldsAt dateParse now (rows ++ [r]) .asof (some (takeRow dateParse now r .asof held).held) := by
  have hrows : Arrives rows := (List.pairwise_append.mp harrives).1
  have hfew : ((rows.filter fun a => selected dateParse now rows a .asof) ++ [r]).Sublist (rows ++ [r]) :=
    List.filter_sublist.append_right [r]
  have htaken : heldRows .asof (some (takeRow dateParse now r .asof held).held) =
      (heldRows .asof held ++ [r]).filter (asofKeeps dateParse now (heldRows .asof held ++ [r])) := by
    cases held with
    | none => rfl
    | some rows => rfl
  rw [HoldsAt] at h ⊢
  rw [htaken, h, List.filter_congr fun a ha => asofKeeps_eq (harrives.sublist hfew) ha]
  have hcofinal := selected_asof_of_cofinal dateParse now (fun a ha => hfew.subset ha) ?_
  · rw [List.filter_congr fun a _ => hcofinal a, List.filter_append, List.filter_append]
    rw [filter_filter_of_imp fun a _ => selected_asof_sub fun b hb => List.mem_append_left [r] hb]
  · intro a ha hup
    rcases List.mem_append.mp ha with ha | ha
    · obtain ⟨m, hm, hmup, ham⟩ := exists_selected hrows ha hup
      exact ⟨m, List.mem_append_left [r] hm, hmup, ham⟩
    · refine ⟨a, List.mem_append_right _ ha, hup, asofLe_refl a⟩

theorem upTo_mono {now later : ℤ} (hle : now ≤ later) {a : BoardRow} (h : upTo dateParse now a = true) :
    upTo dateParse later a = true := by
  unfold upTo at *
  obtain ⟨t, ht, hlt⟩ := (Option.any_eq_true _ _).mp h
  refine (Option.any_eq_true _ _).mpr ⟨t, ht, ?_⟩
  simp only [decide_eq_true_eq] at *
  omega

/-- When the readers' time moves, what an `asof` rule still holds is what it then selects. -/
theorem holdsAt_settle {now later : ℤ} (hle : now ≤ later) {rows : List BoardRow} (harrives : Arrives rows)
    (kind : RetentionKind) {held : Option (HeldOf kind)} (h : HoldsAt dateParse now rows kind held) :
    HoldsAt dateParse later rows kind (held.map fun v => (RuleState.settle dateParse later kind v).1) := by
  cases kind with
  | newest =>
      have hsame : held.map (fun v => (RuleState.settle dateParse later .newest v).1) = held := by simp [RuleState.settle]
      rwa [hsame]
  | first =>
      have hsame : held.map (fun v => (RuleState.settle dateParse later .first v).1) = held := by simp [RuleState.settle]
      rwa [hsame]
  | all =>
      have hsame : held.map (fun v => (RuleState.settle dateParse later .all v).1) = held := by simp [RuleState.settle]
      rwa [hsame]
  | run =>
      have hsame : held.map (fun v => (RuleState.settle dateParse later .run v).1) = held := by simp [RuleState.settle]
      rwa [hsame]
  | asof =>
      have hsettle : heldRows .asof (held.map fun v => (RuleState.settle dateParse later .asof v).1) =
          (heldRows .asof held).filter (asofKeeps dateParse later (heldRows .asof held)) := by
        cases held with
        | none => rfl
        | some rows => rfl
      have hfew : (rows.filter fun a => selected dateParse now rows a .asof).Sublist rows := List.filter_sublist
      rw [HoldsAt] at h ⊢
      rw [hsettle, h, List.filter_congr fun a ha => asofKeeps_eq (harrives.sublist hfew) ha]
      have hcofinal := selected_asof_of_cofinal dateParse later (fun a ha => hfew.subset ha) ?_
      · rw [List.filter_congr fun a _ => hcofinal a]
        refine filter_filter_of_imp fun a _ hlater => ?_
        rw [selected_asof_iff] at *
        intro hup b hb hbup
        exact hlater (upTo_mono hle hup) b hb (upTo_mono hle hbup)
      · intro a ha hup
        by_cases hnow : upTo dateParse now a = true
        · obtain ⟨m, hm, hmup, ham⟩ := exists_selected harrives ha hnow
          exact ⟨m, hm, upTo_mono hle hmup, ham⟩
        · refine ⟨a, List.mem_filter.mpr ⟨ha, selected_asof_iff.mpr fun h => absurd h hnow⟩, hup, asofLe_refl a⟩

theorem holdsBest_takeOne (better : BoardRow → BoardRow → Bool) (hirrefl : ∀ a, better a a = false)
    (htrans : ∀ a b c, better a b = false → better c b = true → better a c = false) {rows : List BoardRow} {r : BoardRow}
    {held : Option BoardRow} (h : HoldsBest better rows held) :
    HoldsBest better (rows ++ [r]) (some (takeOne better r held).1) := by
  refine ⟨nofun, ?_⟩
  intro w hw
  cases Option.some.inj hw
  cases held with
  | none =>
      rw [h.1 rfl, List.nil_append]
      exact ⟨List.mem_singleton_self r, fun a ha => List.mem_singleton.mp ha ▸ hirrefl _⟩
  | some was =>
      obtain ⟨hwas, hbest⟩ := h.2 was rfl
      rw [takeOne]
      split_ifs with hbetter
      · refine ⟨List.mem_append_right _ (List.mem_singleton_self r), fun a ha => ?_⟩
        rcases List.mem_append.mp ha with ha | ha
        · exact htrans a was r (hbest a ha) hbetter
        · exact List.mem_singleton.mp ha ▸ hirrefl _
      · refine ⟨List.mem_append_left _ hwas, fun a ha => ?_⟩
        rcases List.mem_append.mp ha with ha | ha
        · exact hbest a ha
        · rw [List.mem_singleton.mp ha]
          simpa using hbetter

theorem before_self (r : BoardRow) : r.before r = false := before_eq_false_iff.mpr (by omega)

theorem HoldsRun.unanchored_snoc {rows : List BoardRow} {run : RunHeld} {r : BoardRow} (h : HoldsRun rows run)
    (hnone : run.anchor = none) (hstart : isRunStart r = false) : HoldsRun (rows ++ [r]) run where
  unanchored := by
    intro _
    obtain ⟨hempty, hno⟩ := h.unanchored hnone
    refine ⟨hempty, fun a ha => ?_⟩
    rcases List.mem_append.mp ha with ha | ha
    · exact hno a ha
    · rw [List.mem_singleton.mp ha]
      exact hstart
  anchored := by
    intro anchor hanchor
    rw [hnone] at hanchor
    cases hanchor

/-- A row that is not after the anchor changes nothing. -/
theorem HoldsRun.snoc_of_not_before {rows : List BoardRow} {run : RunHeld} {anchor r : BoardRow}
    (h : HoldsRun rows run) (hanchor : run.anchor = some anchor) (hnot : anchor.before r = false) :
    HoldsRun (rows ++ [r]) run where
  unanchored := by
    intro hnone
    rw [hanchor] at hnone
    cases hnone
  anchored := by
    intro anchor' heq
    obtain ⟨hanchors, hmembers⟩ := h.anchored anchor' heq
    rw [hanchor] at heq
    cases heq
    refine ⟨⟨List.mem_append_left _ hanchors.mem, hanchors.isStart, fun a ha hs => ?_⟩, ?_⟩
    · rcases List.mem_append.mp ha with ha | ha
      · exact hanchors.newest a ha hs
      · rw [List.mem_singleton.mp ha]
        exact hnot
    · rw [List.filter_append, hmembers, List.filter_singleton]
      simp [hnot]

theorem HoldsRun.member_snoc {rows : List BoardRow} {run : RunHeld} {anchor r : BoardRow} (h : HoldsRun rows run)
    (hanchor : run.anchor = some anchor) (hstart : isRunStart r = false) (hbefore : anchor.before r = true) :
    HoldsRun (rows ++ [r]) ⟨run.anchor, run.members ++ [r]⟩ where
  unanchored := by
    intro hnone
    rw [hanchor] at hnone
    cases hnone
  anchored := by
    intro anchor' heq
    obtain ⟨hanchors, hmembers⟩ := h.anchored anchor' heq
    rw [hanchor] at heq
    cases heq
    refine ⟨⟨List.mem_append_left _ hanchors.mem, hanchors.isStart, fun a ha hs => ?_⟩, ?_⟩
    · rcases List.mem_append.mp ha with ha | ha
      · exact hanchors.newest a ha hs
      · rw [List.mem_singleton.mp ha, hstart] at hs
        cases hs
    · rw [List.filter_append, hmembers, List.filter_singleton]
      simp [hstart, hbefore]

/-- A `run.start` that none of the rows is after becomes the anchor. -/
theorem holdsRun_start {rows members : List BoardRow} {r : BoardRow} (hstart : isRunStart r = true)
    (hlast : ∀ a ∈ rows, isRunStart a = true → r.before a = false)
    (hmembers : (members.filter fun m => r.before m) = rows.filter fun a => !isRunStart a && r.before a) :
    HoldsRun (rows ++ [r]) ⟨some r, members.filter fun m => r.before m⟩ where
  unanchored := nofun
  anchored := by
    intro anchor heq
    cases heq
    refine ⟨⟨List.mem_append_right _ (List.mem_singleton_self r), hstart, fun a ha hs => ?_⟩, ?_⟩
    · rcases List.mem_append.mp ha with ha | ha
      · exact hlast a ha hs
      · rw [List.mem_singleton.mp ha]
        exact before_self r
    · rw [List.filter_append, hmembers, List.filter_singleton]
      simp [hstart]

theorem holdsAt_takeRow_run {now : ℤ} {rows : List BoardRow} {r : BoardRow} {held : Option (HeldOf .run)}
    (harrives : Arrives (rows ++ [r])) (hstarts : StartsInTime (rows ++ [r]))
    (h : HoldsAt dateParse now rows .run held) :
    HoldsAt dateParse now (rows ++ [r]) .run (some (takeRow dateParse now r .run held).held) := by
  have hlt : ∀ a ∈ rows, a.ins < r.ins := fun a ha =>
    (List.pairwise_append.mp harrives).2.2 a ha r (List.mem_singleton_self r)
  have htaken : takeRow dateParse now r .run held = takeRun r (heldRun held) := by cases held <;> rfl
  rw [HoldsAt] at h ⊢
  rw [htaken]
  show HoldsRun _ (takeRun r (heldRun held)).held
  unfold takeRun
  by_cases hstart : isRunStart r = true
  · rw [if_pos hstart]
    cases hanchor : (heldRun held).anchor with
    | none =>
        -- what came before the first start is not after it
        obtain ⟨hempty, hno⟩ := h.unanchored hanchor
        refine holdsRun_start hstart (fun a ha hs => absurd hs (by simp [hno a ha])) ?_
        rw [hempty, List.filter_nil, eq_comm, List.filter_eq_nil_iff]
        intro a ha hkept
        have hle := hstarts rows r [] rfl hstart hno a ha
        have hbefore := before_iff.mp (Bool.and_eq_true_iff.mp hkept).2
        have := hlt a ha
        omega
    | some anchor =>
        obtain ⟨hanchors, hmembers⟩ := h.anchored anchor hanchor
        dsimp only
        split_ifs with hold
        · refine h.snoc_of_not_before hanchor ?_
          rw [before_iff] at hold
          rw [before_eq_false_iff]
          omega
        · -- what is after the new anchor is after the old one
          rw [Bool.not_eq_true, before_eq_false_iff] at hold
          refine holdsRun_start hstart ?_ ?_
          · intro a ha hs
            have := hanchors.newest a ha hs
            rw [before_eq_false_iff] at *
            omega
          · rw [hmembers, List.filter_filter]
            refine List.filter_congr fun a ha => ?_
            rw [Bool.eq_iff_iff]
            simp only [Bool.and_eq_true, Bool.not_eq_true', before_iff]
            have := hlt a ha
            constructor
            · rintro ⟨hra, hns, -⟩
              exact ⟨hns, hra⟩
            · rintro ⟨hns, hra⟩
              refine ⟨hra, hns, ?_⟩
              omega
  · rw [if_neg hstart]
    rw [Bool.not_eq_true] at hstart
    cases hanchor : (heldRun held).anchor with
    | none =>
        rw [Option.any_none, if_neg Bool.false_ne_true]
        exact h.unanchored_snoc hanchor hstart
    | some anchor =>
        rw [Option.any_some]
        split_ifs with hbefore
        · have := h.member_snoc hanchor hstart hbefore
          rwa [hanchor] at this
        · exact h.snoc_of_not_before hanchor (by simpa using hbefore)

/-- Under every kind, one more row of a key. -/
theorem holdsAt_takeRow {now : ℤ} {rows : List BoardRow} {r : BoardRow} (kind : RetentionKind)
    {held : Option (HeldOf kind)} (harrives : Arrives (rows ++ [r]))
    (hstarts : kind = .run → StartsInTime (rows ++ [r])) (h : HoldsAt dateParse now rows kind held) :
    HoldsAt dateParse now (rows ++ [r]) kind (some (takeRow dateParse now r kind held).held) := by
  cases kind with
  | newest =>
      refine holdsBest_takeOne newer before_self (fun a b c hab hcb => ?_) h
      unfold newer at *
      rw [before_iff] at hcb
      rw [before_eq_false_iff] at *
      omega
  | first =>
      refine holdsBest_takeOne earlier before_self (fun a b c hab hcb => ?_) h
      unfold earlier at *
      rw [before_iff] at hcb
      rw [before_eq_false_iff] at *
      omega
  | all =>
      rw [HoldsAt] at h ⊢
      have htaken : heldRows .all (some (takeRow dateParse now r .all held).held) = heldRows .all held ++ [r] := by
        cases held with
        | none => rfl
        | some rows => rfl
      rw [htaken, h]
  | run => exact holdsAt_takeRow_run harrives (hstarts rfl) h
  | asof => exact holdsAt_takeRow_asof harrives h

/-! ### The rows that are held -/

theorem mem_heldRows_best {better : BoardRow → BoardRow → Bool} (htotal : ∀ a b, a.ins ≠ b.ins →
    better a b = false → better b a = true) {rows : List BoardRow} {held : Option BoardRow} (harrives : Arrives rows)
    (h : HoldsBest better rows held) {r : BoardRow} :
    held = some r ↔ r ∈ rows ∧ ∀ a ∈ rows, better a r = false := by
  refine ⟨h.2 r, ?_⟩
  rintro ⟨hr, hbest⟩
  cases held with
  | none =>
      rw [h.1 rfl] at hr
      cases hr
  | some w =>
      obtain ⟨hw, hwbest⟩ := h.2 w rfl
      by_contra hne
      have hins : w.ins ≠ r.ins := fun hins => hne (by rw [harrives.eq_of_ins hw hr hins])
      have hbetter := htotal w r hins (hbest w hw)
      rw [hwbest r hr] at hbetter
      cases hbetter

/-- A rule holds a row of a key exactly when it selects it. -/
theorem mem_heldRows_iff {now : ℤ} {rows : List BoardRow} {kind : RetentionKind} {held : Option (HeldOf kind)}
    (harrives : Arrives rows) (h : HoldsAt dateParse now rows kind held) {r : BoardRow} :
    r ∈ heldRows kind held ↔ r ∈ rows ∧ selected dateParse now rows r kind = true := by
  cases kind with
  | newest =>
      have hbest := mem_heldRows_best (fun a b hne hab => ?_) harrives h (r := r)
      · have hheld : r ∈ heldRows .newest held ↔ held = some r := by
          cases held <;> simp [heldRows, HeldOf.rows, eq_comm]
        rw [hheld, hbest]
        simp [selected, newer]
      · unfold newer at *
        rw [before_eq_false_iff] at hab
        rw [before_iff]
        omega
  | first =>
      have hbest := mem_heldRows_best (fun a b hne hab => ?_) harrives h (r := r)
      · have hheld : r ∈ heldRows .first held ↔ held = some r := by
          cases held <;> simp [heldRows, HeldOf.rows, eq_comm]
        rw [hheld, hbest]
        simp [selected, earlier]
      · unfold earlier at *
        rw [before_eq_false_iff] at hab
        rw [before_iff]
        omega
  | all =>
      rw [HoldsAt] at h
      rw [h]
      simp [selected]
  | run =>
      rw [HoldsAt] at h
      have hheld : heldRows .run held = (heldRun held).anchor.toList ++ (heldRun held).members := by
        cases held with
        | none => rfl
        | some run => rfl
      rw [hheld, List.mem_append, Option.mem_toList]
      simp only [selected, List.any_eq_true, List.all_eq_true, Bool.and_eq_true, Bool.or_eq_true, decide_eq_true_eq,
        Bool.not_eq_true', Bool.and_eq_false_iff]
      cases hanchor : (heldRun held).anchor with
      | none =>
          obtain ⟨hempty, hno⟩ := h.unanchored hanchor
          rw [hempty]
          constructor
          · rintro (hr | hr) <;> cases hr
          · rintro ⟨-, a, ha, ⟨hs, -⟩, -⟩
            rw [hno a ha] at hs
            cases hs
      | some anchor =>
          obtain ⟨hanchors, hmembers⟩ := h.anchored anchor hanchor
          have hnewest : ∀ a ∈ rows, isRunStart a = false ∨ anchor.before a = false := by
            intro a ha
            by_cases hs : isRunStart a = true
            · exact .inr (hanchors.newest a ha hs)
            · exact .inl (by simpa using hs)
          rw [hmembers, List.mem_filter]
          constructor
          · rintro (hr | ⟨hr, hafter⟩)
            · cases Option.some.inj hr
              exact ⟨hanchors.mem, _, hanchors.mem, ⟨hanchors.isStart, hnewest⟩, .inl rfl⟩
            · exact ⟨hr, _, hanchors.mem, ⟨hanchors.isStart, hnewest⟩, .inr (Bool.and_eq_true_iff.mp hafter).2⟩
          · rintro ⟨hr, a, ha, ⟨hs, hamax⟩, har⟩
            -- the newest start is the anchor
            have haa : a = anchor := by
              refine harrives.eq_of_ins ha hanchors.mem ?_
              have h₁ := (hnewest a ha).resolve_left (by simp [hs])
              have h₂ := (hamax anchor hanchors.mem).resolve_left (by simp [hanchors.isStart])
              rw [before_eq_false_iff] at h₁ h₂
              omega
            rw [haa] at har
            rcases har with hins | hafter
            · exact .inl (by rw [harrives.eq_of_ins hanchors.mem hr hins])
            · refine .inr ⟨hr, ?_⟩
              rw [hafter, Bool.and_true, Bool.not_eq_true']
              by_contra hstart
              rw [Bool.not_eq_false] at hstart
              rw [hanchors.newest r hr hstart] at hafter
              cases hafter
  | asof =>
      rw [HoldsAt] at h
      rw [h, List.mem_filter]

/-! ### Rows that are let go -/

/-- The identities of rows. -/
def insOf (rows : List BoardRow) : Multiset ℕ := (rows.map BoardRow.ins : List ℕ)

@[simp] theorem insOf_nil : insOf [] = 0 := rfl

@[simp] theorem insOf_append (a b : List BoardRow) : insOf (a ++ b) = insOf a + insOf b := by
  unfold insOf
  rw [List.map_append, Multiset.coe_add]

@[simp] theorem insOf_cons (r : BoardRow) (rows : List BoardRow) : insOf (r :: rows) = {r.ins} + insOf rows := rfl

theorem insOf_filter_add (p : BoardRow → Bool) (rows : List BoardRow) :
    insOf (rows.filter p) + insOf (rows.filter fun a => !p a) = insOf rows := by
  rw [← insOf_append]
  unfold insOf
  rw [Multiset.coe_eq_coe]
  exact (List.filter_append_perm p rows).map _

theorem insOf_takeOne (better : BoardRow → BoardRow → Bool) (r : BoardRow) (held : Option BoardRow) :
    insOf [(takeOne better r held).1] + insOf (takeOne better r held).2.1 =
      insOf held.toList + if (takeOne better r held).2.2 then {r.ins} else 0 := by
  cases held with
  | none => simp [takeOne]
  | some was =>
      by_cases hbetter : better r was = true
      · simp [takeOne, hbetter, add_comm]
      · simp [takeOne, hbetter]

theorem insOf_takeRun (r : BoardRow) (run : RunHeld) :
    insOf (HeldOf.rows .run (takeRun r run).held) + insOf (takeRun r run).letGo =
      insOf (run.anchor.toList ++ run.members) + if (takeRun r run).holds then {r.ins} else 0 := by
  have hsplit := insOf_filter_add (fun m => r.before m) run.members
  by_cases hstart : isRunStart r = true
  · cases hanchor : run.anchor with
    | none =>
        have htaken : takeRun r run = ⟨(⟨some r, run.members.filter fun m => r.before m⟩ : RunHeld),
            run.members.filter fun m => !r.before m, true⟩ := by simp [takeRun, hstart, hanchor]
        rw [htaken]
        simp only [HeldOf.rows, Option.toList_some, Option.toList_none, List.nil_append, List.singleton_append,
          insOf_cons, if_true, ← hsplit]
        abel
    | some anchor =>
        by_cases hold : r.before anchor = true
        · have htaken : takeRun r run = ⟨run, [], false⟩ := by simp [takeRun, hstart, hanchor, hold]
          rw [htaken]
          simp [HeldOf.rows, hanchor]
        · have htaken : takeRun r run = ⟨(⟨some r, run.members.filter fun m => r.before m⟩ : RunHeld),
              anchor :: run.members.filter fun m => !r.before m, true⟩ := by simp [takeRun, hstart, hanchor, hold]
          rw [htaken]
          simp only [HeldOf.rows, Option.toList_some, List.singleton_append, insOf_cons, ← hsplit, if_true]
          abel
  · by_cases hafter : (run.anchor.any fun anchor => anchor.before r) = true
    · have htaken : takeRun r run = ⟨(⟨run.anchor, run.members ++ [r]⟩ : RunHeld), [], true⟩ := by
        simp [takeRun, hstart, hafter]
      rw [htaken]
      simp [HeldOf.rows, add_assoc]
    · have htaken : takeRun r run = ⟨run, [], false⟩ := by simp [takeRun, hstart, hafter]
      rw [htaken]
      simp [HeldOf.rows]

theorem insOf_takeAsof (now : ℤ) (r : BoardRow) (rows : List BoardRow) :
    insOf (HeldOf.rows .asof (takeAsof dateParse now r rows).held) + insOf (takeAsof dateParse now r rows).letGo =
      insOf rows + if (takeAsof dateParse now r rows).holds then {r.ins} else 0 := by
  have hsplit := insOf_filter_add (asofKeeps dateParse now (rows ++ [r])) rows
  unfold takeAsof
  dsimp only [HeldOf.rows]
  rw [List.filter_append, insOf_append, ← hsplit, List.filter_singleton]
  by_cases hkeeps : asofKeeps dateParse now (rows ++ [r]) r = true
  · simp only [hkeeps, cond_true, insOf_cons, insOf_nil, if_true]
    abel
  · simp [hkeeps]

variable (dateParse) in
/-- What is held after an offer and what is let go was held before, or is the row that is then held. -/
theorem insOf_takeRow (now : ℤ) (r : BoardRow) (kind : RetentionKind) (held : Option (HeldOf kind)) :
    insOf (HeldOf.rows kind (takeRow dateParse now r kind held).held) + insOf (takeRow dateParse now r kind held).letGo =
      insOf (heldRows kind held) + if (takeRow dateParse now r kind held).holds then {r.ins} else 0 := by
  cases kind with
  | newest =>
      have hheld : heldRows .newest held = held.toList := by cases held <;> rfl
      rw [hheld]
      exact insOf_takeOne newer r held
  | first =>
      have hheld : heldRows .first held = held.toList := by cases held <;> rfl
      rw [hheld]
      exact insOf_takeOne earlier r held
  | all =>
      have hheld : HeldOf.rows .all (takeRow dateParse now r .all held).held = heldRows .all held ++ [r] := by
        cases held <;> rfl
      rw [hheld]
      simp [takeRow]
  | run =>
      have hheld : heldRows .run held = (held.getD ⟨none, []⟩ : RunHeld).anchor.toList ++
          (held.getD ⟨none, []⟩ : RunHeld).members := by cases held <;> rfl
      rw [hheld]
      exact insOf_takeRun r (held.getD ⟨none, []⟩)
  | asof =>
      have hheld : heldRows .asof held = (held.getD [] : List BoardRow) := by cases held <;> rfl
      rw [hheld]
      exact insOf_takeAsof now r (held.getD [])

variable (dateParse) in
/-- What a settled key holds and what it lets go was held before. -/
theorem insOf_settle (now : ℤ) (kind : RetentionKind) (held : HeldOf kind) :
    insOf (HeldOf.rows kind (RuleState.settle dateParse now kind held).1) +
      insOf (RuleState.settle dateParse now kind held).2 = insOf (HeldOf.rows kind held) := by
  cases kind with
  | asof => exact insOf_filter_add (asofKeeps dateParse now held) held
  | newest => simp [RuleState.settle]
  | first => simp [RuleState.settle]
  | all => simp [RuleState.settle]
  | run => simp [RuleState.settle]

end

end Remudero.Board
