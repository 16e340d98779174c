import Remudero.Ledger.Shed
import Remudero.Lib.JsonSize

/-! # The byte budget of a rotation

What a rotation writes is bounded by what it is given.  The core is made of lines that may stay: those of a step that is
retained or that a window keeps for a while, and the dated lines of a daemon's run, which may be the evidence of a boot.
The note rows take no more than the same rows with the largest numbers, the longest step and a marker for every plan-only
review.

`rotation_converges`: when both together are below the base ceiling, or below its backstop while more bytes than the notes
are appended in an hour, the file that is written is below the ceiling that the rotation records. -/

namespace Remudero.Ledger

open Remudero.Lib

/-! ### Lines that may stay -/

/-- The line is classified by its step, or may be evidence of a boot. -/
def mayStay (retained : List Text) (p : ParsedLine) : Bool :=
  (p.step.any fun step => !step.isEmpty && (step ∈ retained || isModelAttributionStep step ||
    isHealthOrDeployStep step || isRenderRelevantStep step)) ||
  (p.tsMs.isSome && (p.str "run_id").any fun run => "DAEMON-".toList.isPrefixOf run)

section Passes

variable {retained : List Text} {nowMs : ℤ} {lines candidates : List ParsedLine} {p : ParsedLine}

/-- What is added to the evidence is the line itself. -/
theorem mem_addEvidence {ts : ℤ} {evidence : Evidence} {e : Text × ParsedLine} (h : e ∈ addEvidence p ts evidence) :
    e.2 = p ∨ e ∈ evidence := by
  have hall : ∀ e ∈ addEvidence p ts evidence, e.2 = p ∨ e ∈ evidence := by
    unfold addEvidence
    refine List.foldlRecOn (motive := fun found => ∀ e ∈ found, e.2 = p ∨ e ∈ evidence) _ _ (fun e he => .inr he) ?_
    intro found hfound key _
    split
    · intro e he
      rcases mem_assign he with rfl | he
      · exact .inl rfl
      · exact hfound e he
    · exact hfound
  exact hall e h

/-- The evidence is made of dated lines of the runs. -/
theorem mem_lifetimeEvidence {runs : List Text} (hruns : ∀ run ∈ runs, "DAEMON-".toList.isPrefixOf run = true)
    {all : Text × Evidence} {e : Text × ParsedLine} (hall : all ∈ lifetimeEvidence runs lines) (he : e ∈ all.2) :
    e.2 ∈ lines ∧ mayStay retained e.2 = true := by
  have hfold : ∀ all ∈ lifetimeEvidence runs lines, ∀ e ∈ all.2, e.2 ∈ lines ∧ mayStay retained e.2 = true := by
    unfold lifetimeEvidence
    refine List.foldlRecOn (motive := fun found : List (Text × Evidence) =>
      ∀ all ∈ found, ∀ e ∈ all.2, e.2 ∈ lines ∧ mayStay retained e.2 = true) _ _ (by simp) ?_
    intro found hfound p hp
    split
    next run ts hrun hts =>
      split
      next hmem =>
        intro all hall e he
        rcases mem_assign hall with rfl | hall
        · rcases mem_addEvidence he with heq | he
          · refine heq ▸ ⟨hp, ?_⟩
            rw [mayStay, hrun, hts, Option.isSome_some, Option.any_some, hruns run hmem, Bool.and_self, Bool.or_true]
          · cases hentry : entryOf run found with
            | none => simp [hentry] at he
            | some old =>
                rw [hentry] at he
                exact hfound _ (mem_of_entryOf hentry) e he
        · exact hfound all hall e he
      next => exact hfound
    next => exact hfound
  exact hfold all hall e he

theorem mem_distinctLines (h : p ∈ distinctLines lines) : p ∈ lines := by
  have hall : ∀ p ∈ distinctLines lines, p ∈ lines := by
    unfold distinctLines
    refine List.foldlRecOn (motive := fun found => ∀ p ∈ found, p ∈ lines) _ _ (by simp) ?_
    intro found hfound q hq
    split
    · exact hfound
    · intro p hp
      rcases List.mem_append.mp hp with hp | hp
      · exact hfound p hp
      · exact List.mem_singleton.mp hp ▸ hq
  exact hall p h

/-- The candidates after the windows, with the evidence. -/
theorem mem_withLifetimeEvidence (h : p ∈ withLifetimeEvidence lines candidates) :
    p ∈ candidates ∨ (p ∈ lines ∧ mayStay retained p = true) := by
  rcases List.mem_append.mp h with h | h
  · exact .inl h
  · obtain ⟨all, hall, hp⟩ := List.mem_flatMap.mp (mem_distinctLines (List.mem_filter.mp h).1)
    obtain ⟨e, he, rfl⟩ := List.mem_map.mp hp
    refine .inr (mem_lifetimeEvidence (fun run hrun => ?_) hall he)
    obtain ⟨q, -, hq⟩ := List.mem_filterMap.mp hrun
    exact (Option.filter_eq_some_iff.mp hq).2

theorem mem_pruneLines (h : p ∈ pruneLines candidates) : p ∈ candidates := by
  obtain ⟨q, hq, rfl⟩ := List.mem_map.mp h
  exact List.fst_mem_of_mem_zipIdx (List.mem_filter.mp hq).1

theorem mem_dedupSweep (h : p ∈ dedupSweep candidates) : p ∈ candidates := by
  rcases List.mem_append.mp h with h | h
  · exact (List.mem_filter.mp h).1
  · obtain ⟨k, -, hk⟩ := List.mem_filterMap.mp h
    unfold newestActed at hk
    dsimp only at hk
    split at hk
    · exact (List.mem_filter.mp (List.mem_of_getLast? hk)).1
    · exact (List.mem_filter.mp (List.mem_filter.mp (List.mem_of_getLast? hk)).1).1

theorem mem_capSteps (h : p ∈ capSteps candidates) : p ∈ candidates := by
  obtain ⟨step, -, hp⟩ := List.mem_flatMap.mp h
  split at hp
  · exact (List.mem_filter.mp hp).1
  · exact (List.mem_filter.mp (List.mem_of_mem_drop hp)).1

/-- The lines that stay after the passes may stay. -/
theorem mayStay_of_retain (hplaces : (lines.map ParsedLine.place).Nodup) (h : p ∈ (retain retained nowMs lines).1) :
    mayStay retained p = true := by
  obtain ⟨hp, hamong⟩ := List.mem_filter.mp h
  obtain ⟨q, hq, hplace⟩ := List.any_eq_true.mp hamong
  have hcandidate := mem_pruneLines (List.mem_filter.mp (mem_dedupSweep (List.mem_filter.mp (mem_capSteps hq)).1)).1
  have hstay : q ∈ lines ∧ mayStay retained q = true := by
    rcases mem_withLifetimeEvidence hcandidate with hwindowed | hstay
    · obtain ⟨hline, hstep⟩ := List.mem_filter.mp (List.mem_filter.mp hwindowed).1
      exact ⟨hline, by rw [mayStay, hstep, Bool.true_or]⟩
    · exact hstay
  have hsame : q = p := List.inj_on_of_nodup_map hplaces hstay.1 hp (of_decide_eq_true hplace)
  exact hsame ▸ hstay.2

theorem nodup_distinctLines (lines : List ParsedLine) : (distinctLines lines).Nodup := by
  unfold distinctLines
  refine List.foldlRecOn (motive := List.Nodup) _ _ List.nodup_nil ?_
  intro found hfound q _
  split
  · exact hfound
  next hnew =>
    refine hfound.append (List.nodup_singleton q) ?_
    intro p hp hq
    obtain rfl := List.mem_singleton.mp hq
    exact hnew (List.any_eq_true.mpr ⟨p, hp, decide_eq_true rfl⟩)

/-- The candidates for a marker are lines, each of them once. -/
theorem subperm_withLifetimeEvidence (hlines : lines.Nodup) (h : candidates.Sublist lines) :
    (withLifetimeEvidence lines candidates).Subperm lines := by
  refine List.subperm_of_subset ?_ ?_
  · refine (hlines.sublist h).append ((nodup_distinctLines _).filter _) ?_
    intro p hp hq
    have hnot := (List.mem_filter.mp hq).2
    rw [ParsedLine.among, List.any_eq_true.mpr ⟨p, hp, decide_eq_true rfl⟩] at hnot
    cases hnot
  · intro p hp
    have hline : p ∈ candidates ∨ (p ∈ lines ∧ mayStay [] p = true) := mem_withLifetimeEvidence hp
    rcases hline with hp | hp
    · exact h.subset hp
    · exact hp.1

theorem markersFrom_sublist (carried : List (CarriedRow × ℕ)) (seen : List Text) (rows : List (CarriedRow × ℕ)) :
    (markersFrom carried seen rows).Sublist (rows.filterMap fun r => planOnlyMarker r.1) := by
  induction rows generalizing seen with
  | nil => exact List.Sublist.refl _
  | cons row rows ih =>
      rw [markersFrom, List.filterMap_cons]
      cases planOnlyMarker row.1 with
      | none =>
          split
          · exact ih seen
          · exact ih seen
      | some m =>
          split
          · exact (ih seen).cons m
          · dsimp only
            split
            · exact (ih seen).cons m
            · exact (ih _).cons_cons m

theorem reviewMarkers_sublist (candidates carried : List ParsedLine) :
    (reviewMarkers candidates carried).Sublist (candidates.filterMap fun p => planOnlyMarker p.carried) := by
  have hsub := markersFrom_sublist ((candidates.zipIdx.filter fun p => p.1.among carried).map fun p => (p.1.carried, p.2))
    (((candidates.zipIdx.filter fun p => p.1.among carried).map fun p => (p.1.carried, p.2)).filterMap
      fun p => carriedMarkerKey p.1) (candidates.map ParsedLine.carried).zipIdx
  have hrows : ((candidates.map ParsedLine.carried).zipIdx.filterMap fun r => planOnlyMarker r.1) =
      candidates.filterMap fun p => planOnlyMarker p.carried := by
    have hfst := congrArg (List.filterMap planOnlyMarker) (List.zipIdx_map_fst 0 (candidates.map ParsedLine.carried))
    rw [List.filterMap_map, List.filterMap_map] at hfst
    exact hfst
  rw [hrows] at hsub
  exact hsub

end Passes

/-! ### Numbers in a note -/

/-- A share of at most four, rounded to a double. -/
theorem doubleQuotient_le {a b : ℕ} (h : a ≤ 4 * b) : doubleQuotient a b ≤ 5 := by
  unfold doubleQuotient
  split
  · norm_num
  next hne =>
    obtain ⟨-, hb⟩ := not_or.mp hne
    have hb' : 0 < b := Nat.pos_of_ne_zero hb
    dsimp only
    generalize hk : 53 + Nat.log2 b = k
    generalize hq : a * 2 ^ k / b = q
    generalize he : Nat.log2 q - 52 = e
    have hqle : q ≤ 4 * 2 ^ k := by
      rw [← hq]
      refine Nat.div_le_of_le_mul ?_
      calc a * 2 ^ k ≤ 4 * b * 2 ^ k := Nat.mul_le_mul_right _ h
        _ = b * (4 * 2 ^ k) := by ring
    have hek : e ≤ k := by
      have hlog : Nat.log2 q ≤ k + 2 := by
        by_cases hq0 : q = 0
        · simp [hq0]
        · have hlt : q < 2 ^ (k + 3) := by
            rw [pow_add]
            have hpos : 0 < 2 ^ k := Nat.two_pow_pos k
            omega
          exact Nat.lt_succ_iff.mp ((Nat.log2_lt hq0).mpr hlt)
      omega
    have hpow : (2 : ℕ) ^ e ≤ 2 ^ k := Nat.pow_le_pow_right (by decide) hek
    -- the mantissa, rounded up at most once
    have hmant : ∀ m : ℕ, m ≤ a * 2 ^ k / (b * 2 ^ e) + 1 → (m * 2 ^ e : ℚ) / 2 ^ k ≤ 5 := by
      intro m hm
      have hnat : m * 2 ^ e ≤ 5 * 2 ^ k := by
        have hden : a * 2 ^ k / (b * 2 ^ e) * 2 ^ e ≤ q := by
          rw [← hq, ← Nat.div_div_eq_div_mul]
          exact Nat.div_mul_le_self _ _
        calc m * 2 ^ e ≤ (a * 2 ^ k / (b * 2 ^ e) + 1) * 2 ^ e := Nat.mul_le_mul_right _ hm
          _ = a * 2 ^ k / (b * 2 ^ e) * 2 ^ e + 2 ^ e := by ring
          _ ≤ 5 * 2 ^ k := by omega
      rw [div_le_iff₀ (by positivity)]
      exact_mod_cast hnat
    split
    · exact_mod_cast hmant _ le_rfl
    · exact hmant _ (Nat.le_succ _)

theorem toFixed4_le {q : ℚ} (h : q ≤ 5) : toFixed4 q ≤ 50000 := by
  unfold toFixed4
  have hfloor : ⌊q * 10000 + 1 / 2⌋ ≤ 50000 := by
    have hlt : ⌊q * 10000 + 1 / 2⌋ < 50001 := by
      rw [Int.floor_lt]
      push_cast
      linarith
    omega
  omega

/-- A number of at most five with four decimals. -/
theorem byteLength_fixed4Text_le {n : ℕ} (h : n ≤ 50000) : Text.byteLength (fixed4Text n) ≤ 6 := by
  have hwhole : Text.byteLength (Nat.toDigits 10 (n / 10000)) ≤ 1 := by
    rw [Json.byteLength_of_digits (Number.isDigit_toDigits _)]
    exact (Nat.length_toDigits_le_iff (by decide) (by decide)).mpr (by omega)
  have hdigits : (Nat.toDigits 10 (n % 10000)).length ≤ 4 :=
    (Nat.length_toDigits_le_iff (by decide) (by decide)).mpr (by omega)
  unfold fixed4Text
  dsimp only
  generalize hpadded : List.replicate (4 - (Nat.toDigits 10 (n % 10000)).length) '0' ++ Nat.toDigits 10 (n % 10000) = padded
  have hlength : padded.length = 4 := by
    rw [← hpadded, List.length_append, List.length_replicate]
    omega
  have hpad : ∀ c ∈ padded, c.isDigit = true := by
    intro c hc
    rw [← hpadded] at hc
    rcases List.mem_append.mp hc with hc | hc
    · rw [List.eq_of_mem_replicate hc]
      rfl
    · exact Number.isDigit_toDigits _ c hc
  have hsub : (padded.reverse.dropWhile (· == '0')).reverse.Sublist padded := by
    have hdrop := (List.dropWhile_sublist (· == '0') (l := padded.reverse)).reverse
    rwa [List.reverse_reverse] at hdrop
  have hfraction : Text.byteLength (padded.reverse.dropWhile (· == '0')).reverse ≤ 4 := by
    rw [Json.byteLength_of_digits fun c hc => hpad c (hsub.subset hc), ← hlength]
    exact hsub.length_le
  have hdot : ('.' : Char).utf8Size = 1 := rfl
  rw [Text.byteLength_append]
  split
  · rw [Text.byteLength_nil]
    omega
  · rw [Json.byteLength_cons, hdot]
    omega

/-! ### The budget -/

namespace RotationInput

variable (x : RotationInput)

def retainable : List ParsedLine := x.lines.filter (mayStay x.retained)

def retainableBytes : ℕ := linesBytes x.retainable

/-- The step of a line that may stay that takes the most bytes. -/
def longestStep : Text :=
  (List.argmax (fun step => Json.bytes (.str step)) (x.retainable.map fun p => p.step.getD [])).getD []

/-- The record of a core, with the largest numbers and the longest step. -/
def widestRecord : List (String × Json) :=
  [("core_bytes", natText x.retainableBytes), ("ceiling_bytes", natText x.fixedCeilingBytes),
    ("core_share", .num "0.0000".toList), ("target_share", .num "0.9".toList),
    ("heaviest_steps", .arr (List.replicate 5 (.arr [.str x.longestStep, natText x.retainableBytes])))]

/-- The most that the rotation's own rows can take: each of them with the largest numbers, and a marker for every
plan-only review. -/
def noteRoom : ℕ :=
  (if x.recarried ≠ [] ∨ x.torn ≠ [] then
    Text.byteLength (x.rotationRow "ledger.recarried" [("count", natText x.recarried.length),
      ("archives", .arr (x.archives.map Json.str)),
      ("unreadable_archives", .arr (x.torn.map fun t =>
        .obj [("name".toList, .str t.1), ("reason".toList, .str t.2)]))])
  else 0) +
  ((x.lines.filterMap fun p => planOnlyMarker p.carried).map fun m =>
    Text.byteLength (x.rotationRow "review.plan_only_reviewed" (markerFields m))).sum +
  (if x.retainedUnreadable then
    Text.byteLength (x.rotationRow "ledger.retained_steps_unreadable" [("path", .str x.retainedStepsPath)])
  else 0) +
  (if 0 < x.rateBytesPerHour then
    Text.byteLength (x.rotationRow "ledger.rotation_headroom" [("rate_bytes_per_hour", .num (x.numberText x.rateBytesPerHour)),
      ("ceiling_bytes", natText (x.fixedCeilingBytes * LEDGER_ROTATION_BACKSTOP_MULTIPLIER))])
  else 0) +
  Text.byteLength (x.rotationRow "ledger.rotation_core_over_target" x.widestRecord)

/-- The lines that may stay and the notes fit below the base ceiling, or below its backstop while an hour of appends is
more than the notes. -/
def Roomy : Prop :=
  x.retainableBytes + x.noteRoom < x.fixedCeilingBytes ∨
    ((x.noteRoom : ℚ) < x.rateBytesPerHour ∧
      x.retainableBytes + x.noteRoom < x.fixedCeilingBytes * LEDGER_ROTATION_BACKSTOP_MULTIPLIER)

variable {x}

/-! ### What a rotation writes is within the budget -/

theorem core_sublist_retainable : x.core.Sublist x.retainable := by
  have hplaces : (x.lines.map ParsedLine.place).Nodup := map_place_originalOrder x.reader x.recarried x.snapshot
  have hsub := (keptCandidates_sublist x.retained x.nowMs x.lines).filter (mayStay x.retained)
  have hall : (retain x.retained x.nowMs x.lines).1.filter (mayStay x.retained) = (retain x.retained x.nowMs x.lines).1 :=
    List.filter_eq_self.mpr fun p hp => mayStay_of_retain hplaces hp
  rwa [hall] at hsub

theorem linesBytes_le_of_sublist {l l' : List ParsedLine} (h : l.Sublist l') : linesBytes l ≤ linesBytes l' :=
  (h.map lineBytes).sum_le_sum fun _ _ => Nat.zero_le _

theorem linesBytes_core_le : linesBytes x.core ≤ x.retainableBytes := linesBytes_le_of_sublist core_sublist_retainable

/-- A row of the rotation takes no more with values that take no more. -/
theorem byteLength_rotationRow_le {step : String} {fs gs : List (String × Json)}
    (h : List.Forall₂ (fun f g => f.1 = g.1 ∧ Json.bytes f.2 ≤ Json.bytes g.2) fs gs) :
    Text.byteLength (x.rotationRow step fs) ≤ Text.byteLength (x.rotationRow step gs) := by
  unfold rotationRow
  rw [Text.byteLength_append, Text.byteLength_append]
  refine Nat.add_le_add_right (Json.bytes_obj_le ?_) _
  refine List.rel_append (List.forall₂_same.mpr fun f _ => ⟨rfl, le_rfl⟩) ?_
  refine List.forall₂_map_left_iff.mpr (List.forall₂_map_right_iff.mpr (h.imp ?_))
  rintro f g ⟨hname, hbytes⟩
  exact ⟨congrArg String.toList hname, hbytes⟩

/-- What a step takes of a list of lines. -/
theorem stepBytes_spec {lines : List ParsedLine} {e : Text × ℕ} (h : e ∈ stepBytes lines) :
    (∃ p ∈ lines, p.step.getD [] = e.1) ∧ e.2 ≤ linesBytes lines := by
  have hfold : ∀ (rest seen : List ParsedLine) (found : List (Text × ℕ)),
      (∀ e ∈ found, (∃ p ∈ seen, p.step.getD [] = e.1) ∧ e.2 ≤ linesBytes seen) →
      ∀ e ∈ rest.foldl (fun found p => assign (p.step.getD []) ((entryOf (p.step.getD []) found).getD 0 + lineBytes p) found)
        found, (∃ p ∈ seen ++ rest, p.step.getD [] = e.1) ∧ e.2 ≤ linesBytes (seen ++ rest) := by
    intro rest
    induction rest with
    | nil =>
        intro seen found hfound
        rw [List.append_nil]
        exact hfound
    | cons p rest ih =>
        intro seen found hfound
        have hnext := ih (seen ++ [p]) (assign (p.step.getD []) ((entryOf (p.step.getD []) found).getD 0 + lineBytes p) found)
        rw [List.append_assoc, List.singleton_append] at hnext
        refine hnext ?_
        have hbytes : linesBytes (seen ++ [p]) = linesBytes seen + lineBytes p := by simp [linesBytes]
        intro e he
        rcases mem_assign he with rfl | he
        · refine ⟨⟨p, by simp, rfl⟩, ?_⟩
          rw [hbytes]
          refine Nat.add_le_add_right ?_ _
          cases hentry : entryOf (p.step.getD []) found with
          | none => exact Nat.zero_le _
          | some n => exact (hfound _ (mem_of_entryOf hentry)).2
        · obtain ⟨⟨q, hq, hstep⟩, hle⟩ := hfound e he
          exact ⟨⟨q, List.mem_append_left _ hq, hstep⟩, by omega⟩
  exact hfold lines [] [] (by simp) e h

theorem bytes_step_le {p : ParsedLine} (h : p ∈ x.retainable) :
    Json.bytes (.str (p.step.getD [])) ≤ Json.bytes (.str x.longestStep) := by
  have hmem : p.step.getD [] ∈ x.retainable.map fun p => p.step.getD [] := List.mem_map_of_mem h
  unfold longestStep
  cases hmax : List.argmax (fun step => Json.bytes (.str step)) (x.retainable.map fun p => p.step.getD []) with
  | none =>
      rw [List.argmax_eq_none] at hmax
      rw [hmax] at hmem
      cases hmem
  | some m => exact List.le_of_mem_argmax (f := fun step => Json.bytes (.str step)) hmem hmax

/-- The record of lines that may stay. -/
theorem coreRecord_le {lines : List ParsedLine} (hsub : lines.Sublist x.retainable)
    (hroom : x.retainableBytes ≤ 4 * x.fixedCeilingBytes) (hceiling : x.fixedCeilingBytes ≠ 0) :
    List.Forall₂ (fun f g => f.1 = g.1 ∧ Json.bytes f.2 ≤ Json.bytes g.2) (x.coreRecord lines) x.widestRecord := by
  have hbytes : linesBytes lines ≤ x.retainableBytes := linesBytes_le_of_sublist hsub
  have hshare : Text.byteLength (fixed4Text (x.coreShare lines)) ≤ 6 :=
    byteLength_fixed4Text_le (toFixed4_le (doubleQuotient_le (by omega)))
  have hsteps : Json.bytes (.arr ((heaviestSteps lines).map fun e => .arr [.str e.1, natText e.2])) ≤
      Json.bytes (.arr (List.replicate 5 (.arr [.str x.longestStep, natText x.retainableBytes]))) := by
    refine Json.bytes_arr_le ?_ ?_
    · rw [List.length_map]
      exact List.length_take_le _ _
    · intro j hj
      obtain ⟨e, he, rfl⟩ := List.mem_map.mp hj
      obtain ⟨⟨p, hp, hstep⟩, hle⟩ := stepBytes_spec (List.mem_mergeSort.mp (List.mem_of_mem_take he))
      refine Json.bytes_pair_le ?_ (Json.bytes_toDigits_le (hle.trans hbytes))
      rw [← hstep]
      exact bytes_step_le (hsub.subset hp)
  unfold coreRecord widestRecord
  rw [if_neg hceiling]
  exact .cons ⟨rfl, Json.bytes_toDigits_le hbytes⟩ (.cons ⟨rfl, le_rfl⟩ (.cons ⟨rfl, hshare⟩ (.cons ⟨rfl, le_rfl⟩
    (.cons ⟨rfl, hsteps⟩ .nil))))

/-- The recarried lines that stay are some of those recarried. -/
theorem recarriedCount_le {lines : List ParsedLine} (hsub : lines.Sublist x.lines) :
    x.recarriedCount lines ≤ x.recarried.length := by
  have hplaces := map_place_originalOrder x.reader x.recarried x.snapshot
  have hnodup : ((lines.filter fun p => decide (p.place < x.recarried.length)).map ParsedLine.place).Nodup :=
    hplaces.sublist ((List.filter_sublist.trans hsub).map ParsedLine.place)
  have hrange : ((lines.filter fun p => decide (p.place < x.recarried.length)).map ParsedLine.place) ⊆
      List.range x.recarried.length := by
    intro i hi
    obtain ⟨p, hp, rfl⟩ := List.mem_map.mp hi
    exact List.mem_range.mpr (of_decide_eq_true (List.mem_filter.mp hp).2)
  have hlength := (List.subperm_of_subset hnodup hrange).length_le
  rwa [List.length_map, List.length_range] at hlength

/-- The markers take no more than one for every plan-only review. -/
theorem byteLength_markers_le :
    Text.byteLength (x.markers.flatMap fun m => x.rotationRow "review.plan_only_reviewed" (markerFields m)) ≤
      ((x.lines.filterMap fun p => planOnlyMarker p.carried).map fun m =>
        Text.byteLength (x.rotationRow "review.plan_only_reviewed" (markerFields m))).sum := by
  have hlines : x.lines.Nodup := List.Nodup.of_map _ (map_place_originalOrder x.reader x.recarried x.snapshot)
  have hsub : x.markers.Subperm (x.lines.filterMap fun p => planOnlyMarker p.carried) := by
    refine (reviewMarkers_sublist _ _).subperm.trans ?_
    obtain ⟨l, hperm, hsublist⟩ := subperm_withLifetimeEvidence hlines (List.filter_sublist.trans List.filter_sublist)
    exact ⟨_, hperm.filterMap _, hsublist.filterMap _⟩
  have hflat : ∀ ms : List PlanOnlyMarker,
      Text.byteLength (ms.flatMap fun m => x.rotationRow "review.plan_only_reviewed" (markerFields m)) =
        (ms.map fun m => Text.byteLength (x.rotationRow "review.plan_only_reviewed" (markerFields m))).sum := by
    intro ms
    induction ms with
    | nil => rfl
    | cons m ms ih => rw [List.flatMap_cons, Text.byteLength_append, ih, List.map_cons, List.sum_cons]
  rw [hflat]
  obtain ⟨l, hperm, hsublist⟩ := hsub
  rw [← (hperm.map _).sum_eq]
  exact (hsublist.map _).sum_le_sum fun _ _ => Nat.zero_le _

/-- The rows about lines that may stay take no more than their room. -/
theorem byteLength_noteContent_le {lines : List ParsedLine} (hsub : lines.Sublist x.retainable)
    (hroom : x.retainableBytes ≤ 4 * x.fixedCeilingBytes) (hceiling : x.fixedCeilingBytes ≠ 0) :
    Text.byteLength (x.noteContent lines) ≤ x.noteRoom := by
  have hcount := recarriedCount_le (hsub.trans List.filter_sublist)
  have hbackstop : x.ceilingBytes ≤ x.fixedCeilingBytes * LEDGER_ROTATION_BACKSTOP_MULTIPLIER := by
    unfold ceilingBytes LEDGER_ROTATION_BACKSTOP_MULTIPLIER
    split
    · exact min_le_left _ _
    · omega
  unfold noteContent noteRoom
  simp only [Text.byteLength_append, apply_ite Text.byteLength, Text.byteLength_nil]
  refine Nat.add_le_add (Nat.add_le_add (Nat.add_le_add (Nat.add_le_add ?_ byteLength_markers_le) le_rfl) ?_) ?_
  · by_cases hnote : 0 < x.recarriedCount lines ∨ x.torn ≠ []
    · have hrecarried : x.recarried ≠ [] ∨ x.torn ≠ [] := by
        refine hnote.imp_left fun hpos hnil => ?_
        rw [hnil, List.length_nil] at hcount
        omega
      rw [if_pos hnote, if_pos hrecarried]
      exact byteLength_rotationRow_le (.cons ⟨rfl, Json.bytes_toDigits_le hcount⟩
        (.cons ⟨rfl, le_rfl⟩ (.cons ⟨rfl, le_rfl⟩ .nil)))
    · rw [if_neg hnote]
      exact Nat.zero_le _
  · split
    · exact byteLength_rotationRow_le (.cons ⟨rfl, le_rfl⟩ (.cons ⟨rfl, Json.bytes_toDigits_le hbackstop⟩ .nil))
    · exact le_rfl
  · split
    · exact byteLength_rotationRow_le (coreRecord_le hsub hroom hceiling)
    · exact Nat.zero_le _

/-- In the budget the core and the notes are below the ceiling that is recorded. -/
theorem Roomy.below (h : x.Roomy) : linesBytes x.core + Text.byteLength (x.noteContent x.core) < x.ceilingBytes := by
  have hbackstop : x.retainableBytes + x.noteRoom < x.fixedCeilingBytes * LEDGER_ROTATION_BACKSTOP_MULTIPLIER := by
    unfold LEDGER_ROTATION_BACKSTOP_MULTIPLIER
    obtain h | ⟨-, h⟩ := h
    · omega
    · exact h
  have hnotes : Text.byteLength (x.noteContent x.core) ≤ x.noteRoom := by
    unfold LEDGER_ROTATION_BACKSTOP_MULTIPLIER at hbackstop
    exact byteLength_noteContent_le core_sublist_retainable (by omega) (by omega)
  have hcore := linesBytes_core_le (x := x)
  obtain h | ⟨hrate, -⟩ := h
  · exact lt_of_lt_of_le (by omega) fixedCeilingBytes_le
  · have hpos : 0 < x.rateBytesPerHour := lt_of_le_of_lt (Nat.cast_nonneg _) hrate
    have hceil : linesBytes x.core + x.noteRoom < ⌈(linesBytes x.core : ℚ) + x.rateBytesPerHour⌉.toNat := by
      have hint : ((linesBytes x.core + x.noteRoom : ℕ) : ℤ) < ⌈(linesBytes x.core : ℚ) + x.rateBytesPerHour⌉ := by
        rw [Int.lt_ceil]
        push_cast
        linarith
      omega
    rw [ceilingBytes, if_pos hpos]
    exact lt_min (by omega) (lt_of_lt_of_le (by omega) (le_max_right _ _))

/-- A rotation within its byte budget converges. -/
theorem rotation_converges (x : RotationInput) (h : x.Roomy) : x.Small → x.Converged := by
  intro hsmall
  refine (converges_iff x).mpr (fun _ => ?_) hsmall
  have hbelow := h.below
  rintro (⟨-, hfull⟩ | ⟨hshed, -⟩)
  · omega
  · omega

/-! ### A rotation within its budget -/

/-- A short start, and a tick that takes the file over the ceiling. -/
def shortStart : Json :=
  .obj [("step".toList, .str "run.start".toList), ("task_id".toList, .str "W1-T1".toList)]

def longTick : Json := .obj [("step".toList, .str "tick".toList), ("note".toList, .str (List.replicate 1000 'x'))]

def roomyInput : RotationInput :=
  { startInput with
    reader := ⟨fun t => [shortStart, longTick].find? fun row => Json.stringify row = t, fun _ => none⟩
    snapshot := Json.stringify shortStart ++ '\n' :: Json.stringify longTick ++ ['\n'] }

theorem rotation_converges_short :
    roomyInput.fixedCeilingBytes < Text.byteLength roomyInput.snapshot ∧ 0 < linesBytes roomyInput.core ∧
      roomyInput.Converged := by
  have hroomy : roomyInput.Roomy := .inl (by decide +kernel)
  have hsmall : roomyInput.Small := by
    unfold Small
    decide +kernel
  exact ⟨by decide +kernel, by decide +kernel, rotation_converges roomyInput hroomy hsmall⟩

end RotationInput

end Remudero.Ledger
