import Remudero.Ledger.Retain

/-! # The ceiling of a rotation

The end of `rotateLedgerLocked` of `lib/ledger.ts`: the ceiling the rotation records, the shedding of
the oldest retained lines when the core reaches it, and the file it then writes, which is the core,
the rotation's own note rows and, when lines were shed, one pointer row.  Nothing is appended during
the call, so the file has no tail.  Sizes are natural numbers of bytes, rates are exact rationals, and
how a number reads in JSON is a parameter.

The shed budgets the core and a pointer row, and not the note rows.  `converges_iff`: the written file
is below the recorded ceiling exactly when the notes do not fill what the budget left (`Crowded`);
`shed_converges` bounds the notes that always fit after a shed, and `rotation_reaches_ceiling` is a
rotation whose note row alone takes the file over the ceiling. -/

namespace Remudero.Ledger

open Remudero.Lib

/-! ### Numbers -/

/-- The double nearest to `a / b`, ties to even. -/
def doubleQuotient (a b : ℕ) : ℚ :=
  if a = 0 ∨ b = 0 then 0
  else
    -- scale so that the quotient has 53 binary digits
    let k := 53 + Nat.log2 b
    let q := a * 2 ^ k / b
    let e := Nat.log2 q - 52
    let num := a * 2 ^ k
    let den := b * 2 ^ e
    let m := num / den
    let r := num % den
    let m := if den < 2 * r ∨ (den = 2 * r ∧ m % 2 = 1) then m + 1 else m
    (m * 2 ^ e : ℚ) / 2 ^ k

/-- `Number(x.toFixed(4))` in ten-thousandths. -/
def toFixed4 (x : ℚ) : ℕ := (⌊x * 10000 + 1 / 2⌋).toNat

/-- The text of a number of ten-thousandths. -/
def fixed4Text (n : ℕ) : Text :=
  let digits := Nat.toDigits 10 (n % 10000)
  let padded := List.replicate (4 - digits.length) '0' ++ digits
  let fraction := (padded.reverse.dropWhile (· == '0')).reverse
  Nat.toDigits 10 (n / 10000) ++ if fraction.isEmpty then [] else '.' :: fraction

def natText (n : ℕ) : Json := .num (Nat.toDigits 10 n)

/-! ### A rotation -/

def LEDGER_ROTATION_BACKSTOP_MULTIPLIER : ℕ := 4

def LEDGER_ROTATION_MIN_RATE_SAMPLE_MS : ℚ := 60000

/-- What the end of a rotation starts from. -/
structure RotationInput where
  reader : LineReader
  /-- how a rational number reads in JSON -/
  numberText : ℚ → Text
  snapshot : Text
  /-- the rows recarried from archives, with the archives and the torn ones -/
  recarried : List Text
  archives : List Text
  torn : List (Text × Text)
  /-- the steps to retain, and whether their record was unreadable -/
  retained : List Text
  retainedUnreadable : Bool
  retainedStepsPath : Text
  fixedCeilingBytes : ℕ
  /-- the carried prefix: its bytes when its digest is the snapshot's, and its rate -/
  prefixBytes : Option ℕ
  priorRate : Option ℚ
  elapsedMs : ℚ
  nowMs : ℤ
  nowIso : Text
  host : Text
  archivePath : Option Text

namespace RotationInput

variable (x : RotationInput)

/-- The smoothed rate of appends. -/
def rateBytesPerHour : ℚ :=
  let size0 : ℚ := Text.byteLength x.snapshot
  let sample : ℚ :=
    match x.prefixBytes with
    | some prefixBytes =>
        if LEDGER_ROTATION_MIN_RATE_SAMPLE_MS ≤ x.elapsedMs then (size0 - prefixBytes) * 3600000 / x.elapsedMs else 0
    | none => 0
  if 0 < sample then
    match x.priorRate with
    | some rate => if 0 < rate then rate / 2 + sample / 2 else sample
    | none => sample
  else 0

def lines : List ParsedLine := originalOrder x.reader x.recarried x.snapshot

/-- The core after the retention passes. -/
def core : List ParsedLine := (retain x.retained x.nowMs x.lines).1

def markers : List PlanOnlyMarker := (retain x.retained x.nowMs x.lines).2

end RotationInput

/-- Bytes of a line with its newline. -/
def lineBytes (p : ParsedLine) : ℕ := Text.byteLength p.raw + 1

def linesBytes (lines : List ParsedLine) : ℕ := (lines.map lineBytes).sum

/-- The content of the lines, each with its newline. -/
def linesContent (lines : List ParsedLine) : Text := lines.flatMap fun p => p.raw ++ ['\n']

namespace RotationInput

variable (x : RotationInput)

/-- The ceiling that the rotation records. -/
def ceilingBytes : ℕ :=
  if 0 < x.rateBytesPerHour then
    min (x.fixedCeilingBytes * LEDGER_ROTATION_BACKSTOP_MULTIPLIER)
      (max x.fixedCeilingBytes ⌈(linesBytes x.core : ℚ) + x.rateBytesPerHour⌉.toNat)
  else x.fixedCeilingBytes

/-! ### Shedding -/

def pointerRow (shedCount : ℕ) : Text :=
  Json.stringify (.obj ([("ts".toList, .str x.nowIso), ("run_id".toList, .str "ledger-rotation".toList),
    ("task_id".toList, .str "_ledger".toList), ("step".toList, .str "ledger.rotation_shed".toList),
    ("shed_count".toList, natText shedCount)] ++
      (x.archivePath.map fun path => ("archive_path".toList, Json.str path)).toList)) ++ ['\n']

/-- The room kept for the pointer row. -/
def pointerBytes : ℕ := Text.byteLength (x.pointerRow 999999)

def targetBytes : ℕ := 9 * x.ceilingBytes / 10

/-- Never shed. -/
def isCorrection (p : ParsedLine) : Bool := p.isStep "correction.provenance"

/-- The lines that may be shed, oldest first. -/
def byAge (lines : List ParsedLine) : List ParsedLine :=
  (lines.filter fun p => !isCorrection p).mergeSort fun a b => a.tsMs.getD 0 ≤ b.tsMs.getD 0

/-- The victims: lines from the front, until the rest has room. -/
def victims (target reserve : ℕ) : ℕ → List ParsedLine → List ParsedLine
  | _, [] => []
  | kept, p :: ps =>
      if kept + reserve < target then [] else p :: victims target reserve (kept - lineBytes p) ps

/-- The lines that are shed. -/
def shed : List ParsedLine :=
  if x.ceilingBytes ≤ linesBytes x.core then
    victims x.targetBytes x.pointerBytes (linesBytes x.core) (byAge x.core)
  else []

/-- The lines that are written back. -/
def kept : List ParsedLine := x.core.filter fun p => !p.among x.shed

/-! ### The written file -/

def rotationRow (step : String) (fields : List (String × Json)) : Text :=
  Json.stringify (.obj ([("ts".toList, Json.str x.nowIso), ("run_id".toList, .str "ledger-rotation".toList),
    ("task_id".toList, .str "_ledger".toList), ("step".toList, .str step.toList), ("host".toList, .str x.host)] ++
      fields.map fun f => (f.1.toList, f.2))) ++ ['\n']

def markerFields (m : PlanOnlyMarker) : List (String × Json) :=
  [("pr_url", .str m.prUrl), ("head_sha", .str m.headSha), ("plan_only", .bool true)] ++
    (m.reviewTaskId.map fun v => ("review_task_id", v)).toList ++
    (m.reviewedAt.map fun v => ("reviewed_at", v)).toList

/-- The bytes that each step takes, in the order of first occurrence. -/
def stepBytes (lines : List ParsedLine) : List (Text × ℕ) :=
  lines.foldl (fun found p =>
    let step := p.step.getD []
    assign step ((entryOf step found).getD 0 + lineBytes p) found) []

def heaviestSteps (lines : List ParsedLine) : List (Text × ℕ) :=
  ((stepBytes lines).mergeSort fun a b => b.2 ≤ a.2).take 5

/-- The share of the fixed ceiling that the core takes, in ten-thousandths. -/
def coreShare (lines : List ParsedLine) : ℕ := toFixed4 (doubleQuotient (linesBytes lines) x.fixedCeilingBytes)

/-- The share is over its target of 0.9; over a ceiling of 0 every core is. -/
def coreOverTarget (lines : List ParsedLine) : Bool :=
  if x.fixedCeilingBytes = 0 then 0 < linesBytes lines else 9000 < x.coreShare lines

def coreRecord (lines : List ParsedLine) : List (String × Json) :=
  [("core_bytes", natText (linesBytes lines)), ("ceiling_bytes", natText x.fixedCeilingBytes),
    ("core_share", if x.fixedCeilingBytes = 0 then .null else .num (fixed4Text (x.coreShare lines))),
    ("target_share", .num "0.9".toList),
    ("heaviest_steps", .arr ((heaviestSteps lines).map fun e => .arr [.str e.1, natText e.2]))]

def recarriedCount (lines : List ParsedLine) : ℕ :=
  (lines.filter fun p => decide (p.place < x.recarried.length)).length

/-- The rotation's own rows after the core. -/
def noteContent (lines : List ParsedLine) : Text :=
  (if 0 < x.recarriedCount lines ∨ x.torn ≠ [] then
    x.rotationRow "ledger.recarried" [("count", natText (x.recarriedCount lines)),
      ("archives", .arr (x.archives.map Json.str)),
      ("unreadable_archives", .arr (x.torn.map fun t =>
        .obj [("name".toList, .str t.1), ("reason".toList, .str t.2)]))]
  else []) ++
  (x.markers.flatMap fun m => x.rotationRow "review.plan_only_reviewed" (markerFields m)) ++
  (if x.retainedUnreadable then
    x.rotationRow "ledger.retained_steps_unreadable" [("path", .str x.retainedStepsPath)]
  else []) ++
  (if 0 < x.rateBytesPerHour then
    x.rotationRow "ledger.rotation_headroom" [("rate_bytes_per_hour", .num (x.numberText x.rateBytesPerHour)),
      ("ceiling_bytes", natText x.ceilingBytes)]
  else []) ++
  (if x.coreOverTarget lines then x.rotationRow "ledger.rotation_core_over_target" (x.coreRecord lines) else [])

def pointerContent : Text := if x.shed.length = 0 then [] else x.pointerRow x.shed.length

/-- The live file right after the rotation. -/
def newLiveContent : Text := linesContent x.kept ++ x.noteContent x.kept ++ x.pointerContent

end RotationInput

/-- The live file exceeds its ceiling, by the base ceiling and what the last rotation recorded. -/
def ledgerExceedsRotationCeiling (size ceilingBytes : ℕ) (effectiveCeilingBytes : ℕ) (rateBytesPerHour : ℚ) : Bool :=
  let limit :=
    if 0 < rateBytesPerHour then
      min (ceilingBytes * LEDGER_ROTATION_BACKSTOP_MULTIPLIER) (max ceilingBytes effectiveCeilingBytes)
    else ceilingBytes
  limit < size

theorem byteLength_linesContent (lines : List ParsedLine) :
    Text.byteLength (linesContent lines) = linesBytes lines := by
  induction lines with
  | nil => rfl
  | cons p ps ih =>
      have hcons : linesContent (p :: ps) = (p.raw ++ ['\n']) ++ linesContent ps := rfl
      have hsum : linesBytes (p :: ps) = lineBytes p + linesBytes ps := rfl
      rw [hcons, Text.byteLength_append, Text.byteLength_append, ih, hsum, lineBytes]
      rfl

namespace RotationInput

variable {x : RotationInput}

/-! ### The shed -/

theorem victims_isFirst (target reserve kept : ℕ) (lines : List ParsedLine) :
    victims target reserve kept lines <+: lines := by
  induction lines generalizing kept with
  | nil => exact List.prefix_refl _
  | cons p ps ih =>
      rw [victims]
      split
      · exact List.nil_prefix
      · exact (List.prefix_cons_inj p).mpr (ih _)

/-- The loop ends with room below the target, or with every line shed. -/
theorem victims_spec (target reserve kept : ℕ) (lines : List ParsedLine) :
    kept - linesBytes (victims target reserve kept lines) + reserve < target ∨
      victims target reserve kept lines = lines := by
  induction lines generalizing kept with
  | nil => exact Or.inr rfl
  | cons p ps ih =>
      rw [victims]
      split
      next hroom => exact Or.inl hroom
      next =>
        have hsum : linesBytes (p :: victims target reserve (kept - lineBytes p) ps)
            = lineBytes p + linesBytes (victims target reserve (kept - lineBytes p) ps) := rfl
        obtain hlt | hall := ih (kept - lineBytes p)
        · left
          rw [hsum]
          omega
        · exact Or.inr (by rw [hall])

theorem nodup_core : (x.core.map ParsedLine.place).Nodup :=
  (map_place_originalOrder x.reader x.recarried x.snapshot).sublist
    ((keptCandidates_sublist x.retained x.nowMs x.lines).map ParsedLine.place)

theorem mem_byAge {lines : List ParsedLine} {p : ParsedLine} :
    p ∈ byAge lines ↔ p ∈ lines ∧ isCorrection p = false := by
  rw [byAge, List.mem_mergeSort, List.mem_filter, Bool.not_eq_true']

theorem mem_shed {p : ParsedLine} (h : p ∈ x.shed) : p ∈ x.core ∧ isCorrection p = false := by
  unfold shed at h
  split at h
  · exact mem_byAge.mp ((victims_isFirst _ _ _ _).subset h)
  · cases h

/-- A line of the core is among the shed ones only when it is shed. -/
theorem among_shed_iff {p : ParsedLine} (hp : p ∈ x.core) : p.among x.shed = true ↔ p ∈ x.shed := by
  rw [ParsedLine.among, List.any_eq_true]
  constructor
  · rintro ⟨q, hq, hplace⟩
    have hsame : q = p := List.inj_on_of_nodup_map nodup_core (mem_shed hq).1 hp (of_decide_eq_true hplace)
    rwa [← hsame]
  · intro h
    exact ⟨p, h, decide_eq_true rfl⟩

theorem mem_kept {p : ParsedLine} : p ∈ x.kept ↔ p ∈ x.core ∧ p ∉ x.shed := by
  rw [kept, List.mem_filter]
  constructor
  · rintro ⟨hp, hno⟩
    refine ⟨hp, fun hshed => ?_⟩
    rw [(among_shed_iff hp).mpr hshed] at hno
    cases hno
  · rintro ⟨hp, hno⟩
    refine ⟨hp, ?_⟩
    rw [Bool.not_eq_true']
    exact eq_false_of_ne_true fun h => hno ((among_shed_iff hp).mp h)

/-- Corrections stay. -/
theorem filter_isCorrection_kept : x.kept.filter isCorrection = x.core.filter isCorrection := by
  rw [kept, List.filter_filter]
  apply List.filter_congr
  intro p hp
  cases hc : isCorrection p with
  | false => rfl
  | true =>
      rw [Bool.true_and, Bool.not_eq_true']
      apply eq_false_of_ne_true
      intro hshed
      have hnot := (mem_shed ((among_shed_iff hp).mp hshed)).2
      rw [hc] at hnot
      cases hnot

theorem kept_eq_core (h : linesBytes x.core < x.ceilingBytes) : x.kept = x.core := by
  have hshed : x.shed = [] := by rw [shed, if_neg (Nat.not_le.mpr h)]
  rw [kept, hshed]
  exact List.filter_eq_self.mpr fun p _ => rfl

theorem nodup_shed : x.shed.Nodup := by
  have hcore : x.core.Nodup := List.Nodup.of_map _ nodup_core
  unfold shed
  split
  · have hbyAge : (byAge x.core).Nodup := (List.mergeSort_perm _ _).nodup_iff.mpr (hcore.filter _)
    exact hbyAge.sublist (victims_isFirst _ _ _ _).sublist
  · exact List.nodup_nil

/-- What stays and what is shed are the core. -/
theorem linesBytes_kept_add_shed : linesBytes x.kept + linesBytes x.shed = linesBytes x.core := by
  have hcore : x.core.Nodup := List.Nodup.of_map _ nodup_core
  have hshed : (x.core.filter fun p => p.among x.shed).Perm x.shed := by
    apply (List.perm_ext_iff_of_nodup (hcore.filter _) nodup_shed).mpr
    intro p
    rw [List.mem_filter]
    constructor
    · rintro ⟨hp, hamong⟩
      exact (among_shed_iff hp).mp hamong
    · intro hp
      exact ⟨(mem_shed hp).1, (among_shed_iff (mem_shed hp).1).mpr hp⟩
  have hsum : linesBytes x.shed = linesBytes (x.core.filter fun p => p.among x.shed) :=
    ((hshed.map lineBytes).sum_eq).symm
  have hsplit := ((List.filter_append_perm (fun p => p.among x.shed) x.core).map lineBytes).sum_eq
  rw [List.map_append, List.sum_append] at hsplit
  rw [hsum, kept, linesBytes, linesBytes, linesBytes, ← hsplit]
  omega

/-! ### The recorded ceiling -/

theorem fixedCeilingBytes_le : x.fixedCeilingBytes ≤ x.ceilingBytes := by
  unfold ceilingBytes LEDGER_ROTATION_BACKSTOP_MULTIPLIER
  split
  · exact le_min (by omega) (le_max_left _ _)
  · exact le_rfl

/-- The check after a rotation is by the ceiling that it recorded. -/
theorem ledgerExceedsRotationCeiling_eq (size : ℕ) :
    ledgerExceedsRotationCeiling size x.fixedCeilingBytes x.ceilingBytes x.rateBytesPerHour
      = decide (x.ceilingBytes < size) := by
  unfold ledgerExceedsRotationCeiling
  by_cases hrate : 0 < x.rateBytesPerHour
  · have hback : x.ceilingBytes ≤ x.fixedCeilingBytes * LEDGER_ROTATION_BACKSTOP_MULTIPLIER := by
      rw [ceilingBytes, if_pos hrate]
      exact min_le_left _ _
    simp only [if_pos hrate, max_eq_right fixedCeilingBytes_le, min_eq_right hback]
  · have hfixed : x.ceilingBytes = x.fixedCeilingBytes := by rw [ceilingBytes, if_neg hrate]
    simp only [if_neg hrate, hfixed]

theorem byteLength_newLiveContent :
    Text.byteLength x.newLiveContent = linesBytes x.kept + Text.byteLength (x.noteContent x.kept)
      + Text.byteLength x.pointerContent := by
  rw [newLiveContent, Text.byteLength_append, Text.byteLength_append, byteLength_linesContent]

/-! ### Convergence -/

/-- The rows that are never shed and the rotation's own rows are shorter than nine tenths of the
ceiling. -/
def Small (x : RotationInput) : Prop :=
  10 * (linesBytes (x.core.filter isCorrection) + Text.byteLength (x.noteContent x.kept)
    + Text.byteLength x.pointerContent) < 9 * x.ceilingBytes

/-- The file is below the recorded ceiling, and the check says so. -/
def Converged (x : RotationInput) : Prop :=
  Text.byteLength x.newLiveContent < x.ceilingBytes ∧
    ledgerExceedsRotationCeiling (Text.byteLength x.newLiveContent) x.fixedCeilingBytes x.ceilingBytes
      x.rateBytesPerHour = false

/-- The note rows fill what the shed left: the core is below the ceiling, so that nothing is shed, and
core and notes are not; or lines were to be shed, one that could still go stays, and what stays with
the notes and the pointer is not below the ceiling. -/
def Crowded (x : RotationInput) : Prop :=
  (linesBytes x.core < x.ceilingBytes ∧
      x.ceilingBytes ≤ linesBytes x.core + Text.byteLength (x.noteContent x.core)) ∨
    (x.ceilingBytes ≤ linesBytes x.core ∧ (∃ p ∈ byAge x.core, p ∉ x.shed) ∧
      x.ceilingBytes ≤ linesBytes x.kept + Text.byteLength (x.noteContent x.kept)
        + Text.byteLength x.pointerContent)

theorem converged_iff : x.Converged ↔ Text.byteLength x.newLiveContent < x.ceilingBytes := by
  constructor
  · exact fun h => h.1
  · intro h
    refine ⟨h, ?_⟩
    rw [ledgerExceedsRotationCeiling_eq, decide_eq_false_iff_not]
    omega

/-- When every line that may go went, the corrections are left. -/
theorem kept_eq_corrections (h : ∀ p ∈ byAge x.core, p ∈ x.shed) : x.kept = x.core.filter isCorrection := by
  rw [← filter_isCorrection_kept]
  symm
  apply List.filter_eq_self.mpr
  intro p hp
  obtain ⟨hcore, hno⟩ := mem_kept.mp hp
  by_contra hc
  exact hno (h p (mem_byAge.mpr ⟨hcore, eq_false_of_ne_true hc⟩))

theorem converges_iff (x : RotationInput) : (x.Small → x.Converged) ↔ (x.Small → ¬ x.Crowded) := by
  apply imp_congr_right
  intro hsmall
  rw [converged_iff, byteLength_newLiveContent]
  constructor
  · rintro hlt (⟨hcore, hfull⟩ | ⟨-, -, hfull⟩)
    · rw [kept_eq_core hcore] at hlt
      omega
    · omega
  · intro hroom
    by_cases hcore : linesBytes x.core < x.ceilingBytes
    · have hpointer : x.pointerContent = [] := by
        rw [pointerContent, shed, if_neg (Nat.not_le.mpr hcore), if_pos List.length_nil]
      rw [kept_eq_core hcore, hpointer, Text.byteLength_nil]
      by_contra hge
      exact hroom (Or.inl ⟨hcore, by omega⟩)
    · by_cases hstays : ∃ p ∈ byAge x.core, p ∉ x.shed
      · by_contra hge
        exact hroom (Or.inr ⟨by omega, hstays, by omega⟩)
      · have hall : ∀ p ∈ byAge x.core, p ∈ x.shed := by
          intro p hp
          by_contra hno
          exact hstays ⟨p, hp, hno⟩
        unfold Small at hsmall
        rw [← kept_eq_corrections hall] at hsmall
        omega

/-- After a shed there is room for the notes and the pointer in what the target and the reserve leave
below the ceiling. -/
theorem shed_converges (hshed : x.ceilingBytes ≤ linesBytes x.core) (hsmall : x.Small)
    (hnotes : Text.byteLength (x.noteContent x.kept) + Text.byteLength x.pointerContent
      ≤ x.ceilingBytes - x.targetBytes + x.pointerBytes) : x.Converged := by
  have htarget : x.targetBytes ≤ x.ceilingBytes := by
    unfold targetBytes
    omega
  apply (converges_iff x).mpr _ hsmall
  rintro - (⟨hcore, -⟩ | ⟨-, ⟨p, hp, hstays⟩, hfull⟩)
  · omega
  · have hsum := linesBytes_kept_add_shed (x := x)
    have heq : x.shed = victims x.targetBytes x.pointerBytes (linesBytes x.core) (byAge x.core) := by
      rw [shed, if_pos hshed]
    obtain hlt | hall := victims_spec x.targetBytes x.pointerBytes (linesBytes x.core) (byAge x.core)
    · rw [← heq] at hlt
      omega
    · rw [heq, hall] at hstays
      exact hstays hp

/-! ### A note row that does not fit -/

/-- A line of a start, of a little less than a thousand bytes. -/
def startRow : Json :=
  .obj [("step".toList, .str "run.start".toList), ("task_id".toList, .str (List.replicate 940 'x'))]

/-- A line of a step that no rotation retains. -/
def tickRow : Json := .obj [("step".toList, .str "tick".toList), ("note".toList, .str (List.replicate 40 'x'))]

/-- Both, which take the file over a ceiling of a thousand bytes. -/
def startInput : RotationInput where
  reader := ⟨fun t => [startRow, tickRow].find? fun row => Json.stringify row = t, fun _ => none⟩
  numberText _ := []
  snapshot := Json.stringify startRow ++ '\n' :: Json.stringify tickRow ++ ['\n']
  recarried := []
  archives := []
  torn := []
  retained := ["run.start".toList]
  retainedUnreadable := false
  retainedStepsPath := []
  fixedCeilingBytes := 1000
  prefixBytes := none
  priorRate := none
  elapsedMs := 0
  nowMs := 0
  nowIso := "1970-01-01T00:00:00.000Z".toList
  host := "h".toList
  archivePath := some "/s/ledger.1970-01-01T00-00-00-000Z.ndjson.gz".toList

/-- The core is below the ceiling, and the row that says how large it is takes the file over it. -/
theorem rotation_reaches_ceiling :
    startInput.fixedCeilingBytes < Text.byteLength startInput.snapshot ∧ startInput.Small ∧
      ¬ startInput.Converged := by
  refine ⟨by decide +kernel, ?_, ?_⟩
  · unfold Small
    decide +kernel
  · rw [converged_iff]
    decide +kernel

end RotationInput

end Remudero.Ledger
