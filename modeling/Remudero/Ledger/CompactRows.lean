import Remudero.Ledger.ArchiveParts
import Remudero.Ledger.CompactProgress

/-! # The rows of a compaction

The rows of the sources go into days, the days into parts and the parts into the outputs of a pass: none is lost and none
is made up (`mem_stagedRows`).  The durable steps of a pass write the outputs in the order of the days and then move the
sources away, and an output may be written onto the path of a source.

* `Compaction.rows_after_crash`: no prefix of the steps loses a row, as long as no source has the name of a day and a row of
  a later one (`InOrder`), and none has the name that a part gets from its own time (`Untimed`).
* `Compaction.rows_after_pass`: under the second condition a whole pass keeps the rows exactly and leaves every other file
  as it was. -/

namespace Remudero.Ledger

open Remudero.Lib StateDir

/-! ### The rows of a text -/

/-- The lines of a text that are not blank, trimmed. -/
def textRows (t : Text) : List Text := ((Text.splitBy (· == '\n') t).map Text.trim).filter fun line => !line.isEmpty

theorem sourceLines_eq (sources : List LedgerFile) : sourceLines sources = sources.flatMap fun f => textRows f.content := by
  unfold sourceLines textRows
  rw [List.map_flatMap, List.filter_flatMap]

/-- A line as it is filed. -/
structure IsRow (row : Text) : Prop where
  ne_nil : row ≠ []
  trimmed : Text.trim row = row
  oneLine : '\n' ∉ row

theorem isRow_of_mem_textRows {t row : Text} (h : row ∈ textRows t) : IsRow row := by
  obtain ⟨hmap, hne⟩ := List.mem_filter.mp h
  obtain ⟨line, hline, rfl⟩ := List.mem_map.mp hmap
  refine ⟨by simpa using hne, Text.trim_trim line, fun hmem => ?_⟩
  have hsep := Text.not_sep_of_mem_splitBy hline '\n' ((Text.trim_sublist_self line).subset hmem)
  simp at hsep

theorem textRows_nil : textRows [] = [] := rfl

theorem textRows_append_newline (a b : Text) : textRows (a ++ '\n' :: b) = textRows a ++ textRows b := by
  unfold textRows
  rw [Text.splitBy_append_cons_sep (by rfl), List.map_append, List.filter_append]

/-- A text that ends in a line feed, in front of another. -/
theorem textRows_closed_append {a : Text} (h : a.getLast? = some '\n') (b : Text) :
    textRows (a ++ b) = textRows a ++ textRows b := by
  obtain ⟨front, rfl⟩ : ∃ front, a = front ++ ['\n'] := List.getLast?_eq_some_iff.mp h
  rw [List.append_assoc, List.singleton_append, textRows_append_newline]
  have hfront := textRows_append_newline front []
  rw [textRows_nil, List.append_nil] at hfront
  rw [hfront]

theorem textRows_flatten {parts : List Text} (h : ∀ part ∈ parts, part.getLast? = some '\n') :
    textRows parts.flatten = parts.flatMap textRows := by
  induction parts with
  | nil => rfl
  | cons part parts ih =>
      rw [List.flatten_cons, textRows_closed_append (h part List.mem_cons_self), List.flatMap_cons,
        ih fun p hp => h p (List.mem_cons_of_mem part hp)]

theorem textRows_row {row : Text} (h : IsRow row) : textRows row = [row] := by
  have hsplit : Text.splitBy (· == '\n') row = [row] :=
    Text.splitBy_of_not_sep fun c hc => beq_eq_false_iff_ne.mpr fun heq => h.oneLine (heq ▸ hc)
  have hne : row.isEmpty = false := by simpa using h.ne_nil
  simp [textRows, hsplit, h.trimmed, hne]

theorem textRows_closedRows {rows : List Text} (h : ∀ row ∈ rows, IsRow row) : textRows (closedRows rows) = rows := by
  induction rows with
  | nil => rfl
  | cons row rows ih =>
      have hcons : closedRows (row :: rows) = row ++ '\n' :: closedRows rows := by simp [closedRows]
      rw [hcons, textRows_append_newline, textRows_row (h row List.mem_cons_self),
        ih fun r hr => h r (List.mem_cons_of_mem row hr), List.singleton_append]

/-! ### The rows of the days -/

def dayRows (days : List DayBucket) : List Text := days.flatMap DayBucket.rows

theorem mem_dayRows_addToDay {ms : ℤ} {line row : Text} {days : List DayBucket} :
    row ∈ dayRows (addToDay ms line days) ↔ row = line ∨ row ∈ dayRows days := by
  induction days with
  | nil => simp [addToDay, dayRows]
  | cons b days ih =>
      unfold addToDay
      split_ifs
      · simp only [dayRows, List.flatMap_cons, List.mem_append, List.mem_singleton]
        rw [or_assoc, or_left_comm]
      · simp only [dayRows, List.flatMap_cons, List.mem_append] at ih ⊢
        rw [ih, or_left_comm]

theorem mem_dayRows_addUndated {undated : List Text} {row : Text} {days : List DayBucket} (h : days ≠ []) :
    row ∈ dayRows (addUndated undated days) ↔ row ∈ undated ∨ row ∈ dayRows days := by
  induction days with
  | nil => exact absurd rfl h
  | cons b days ih =>
      cases days with
      | nil =>
          simp only [addUndated, dayRows, List.flatMap_cons, List.flatMap_nil, List.append_nil, List.mem_append]
          exact or_comm
      | cons b' days =>
          have hrest := ih (List.cons_ne_nil b' days)
          simp only [addUndated, dayRows, List.flatMap_cons, List.mem_append] at hrest ⊢
          rw [hrest, or_left_comm]

namespace Compaction

variable (C : Compaction)

theorem mem_dayRows_byDay {now : ℤ} {row : Text} (rows : List Text) {days : List DayBucket} :
    row ∈ dayRows (rows.foldl (C.fileRow now) days) ↔ (row ∈ rows ∧ (C.tsOf row).isSome) ∨ row ∈ dayRows days := by
  induction rows generalizing days with
  | nil => simp
  | cons line rows ih =>
      rw [List.foldl_cons, ih]
      unfold fileRow
      cases hts : C.tsOf line with
      | none =>
          have hnot : row = line → (C.tsOf row).isSome = false := by
            rintro rfl
            rw [hts]
            rfl
          simp only [List.mem_cons]
          constructor
          · rintro (⟨hrow, hsome⟩ | hrow)
            · exact .inl ⟨.inr hrow, hsome⟩
            · exact .inr hrow
          · rintro (⟨rfl | hrow, hsome⟩ | hrow)
            · rw [hnot rfl] at hsome
              cases hsome
            · exact .inl ⟨hrow, hsome⟩
            · exact .inr hrow
      | some ts =>
          dsimp only
          rw [mem_dayRows_addToDay, List.mem_cons]
          constructor
          · rintro (⟨hrow, hsome⟩ | rfl | hrow)
            · exact .inl ⟨.inr hrow, hsome⟩
            · exact .inl ⟨.inl rfl, by rw [hts]; rfl⟩
            · exact .inr hrow
          · rintro (⟨rfl | hrow, hsome⟩ | hrow)
            · exact .inr (.inl rfl)
            · exact .inl ⟨hrow, hsome⟩
            · exact .inr (.inr hrow)

theorem mem_dayRows_dayBuckets {now : ℤ} {rows : List Text} {row : Text} :
    row ∈ dayRows (C.dayBuckets now rows) ↔ row ∈ rows := by
  have hfiled := @mem_dayRows_byDay C now row rows []
  have hundated : row ∈ rows.filter (fun line => (C.tsOf line).isNone) ↔ row ∈ rows ∧ (C.tsOf row).isNone := List.mem_filter
  unfold dayBuckets
  dsimp only
  by_cases hnil : rows.foldl (C.fileRow now) [] = []
  · rw [hnil] at hfiled ⊢
    rw [if_pos (by rfl), mem_dayRows_addUndated (List.cons_ne_nil _ _), hundated]
    simp only [dayRows, List.flatMap_nil, List.not_mem_nil, or_false, List.flatMap_cons, List.append_nil] at hfiled ⊢
    cases hts : C.tsOf row with
    | none => simp
    | some ts => simpa [hts] using hfiled
  · rw [if_neg (by simpa using hnil), mem_dayRows_addUndated hnil, hfiled, hundated]
    cases hts : C.tsOf row <;> simp [dayRows]

theorem mem_dayRows_compactedDays {now : ℤ} {sources : List LedgerFile} {row : Text} :
    row ∈ dayRows (C.compactedDays now sources) ↔ row ∈ sourceLines sources := by
  have hdistinct : row ∈ distinctRows sources ↔ row ∈ sourceLines sources := by
    unfold distinctRows
    exact mem_firstSeen_iff some (fun _ _ => rfl) (fun a _ b _ h => Option.some.inj h) row
  unfold compactedDays
  dsimp only
  split_ifs with hnil
  · have hempty : (distinctRows sources).mergeSort C.tsLe = [] := by simpa using hnil
    rw [← hdistinct]
    refine iff_of_false List.not_mem_nil fun hrow => ?_
    have hsorted : row ∈ (distinctRows sources).mergeSort C.tsLe := List.mem_mergeSort.mpr hrow
    rw [hempty] at hsorted
    cases hsorted
  · rw [C.mem_dayRows_dayBuckets, List.mem_mergeSort, hdistinct]

end Compaction

/-! ### The rows of the parts -/

/-- A day of filed rows. -/
structure Filed (d : DayBucket) : Prop where
  ne_nil : d.rows ≠ []
  rows : ∀ row ∈ d.rows, IsRow row

theorem textRows_parts {maxArchiveBytes : ℕ} {rows parts : List Text} (hne : rows ≠ []) (hrows : ∀ row ∈ rows, IsRow row)
    (h : splitArchiveBody maxArchiveBytes (bodyOf rows) = .ok parts) : parts.flatMap textRows = rows := by
  have hlines : ∀ row ∈ rows, ∀ c ∈ row, (c == '\n') = false := fun row hrow c hc =>
    beq_eq_false_iff_ne.mpr fun heq => (hrows row hrow).oneLine (heq ▸ hc)
  have hends : Text.endsWith (bodyOf rows) "\n" = true := List.isSuffixOf_iff_suffix.mpr (List.suffix_append _ _)
  have hdrop : (bodyOf rows).dropLast = Text.join ['\n'] rows := List.dropLast_concat
  have hsplit : Text.splitBy (· == '\n') (Text.join ['\n'] rows) = rows := Text.splitBy_join rfl hne hlines
  unfold splitArchiveBody at h
  rw [if_pos hends, hdrop, hsplit] at h
  have hblank : rows ≠ [[]] := by
    rintro rfl
    exact (hrows [] List.mem_cons_self).ne_nil rfl
  dsimp only at h
  rw [if_neg hblank] at h
  obtain ⟨row, -, -, herror⟩ | ⟨parts', hok, hparted⟩ :=
    @splitRows_parted maxArchiveBytes rows [] (fun row hrow => (hrows row hrow).oneLine) (Nat.zero_le _)
  · rw [show (([] : List Text).map rowSize).sum = 0 from rfl, h] at herror
    cases herror
  · rw [show (([] : List Text).map rowSize).sum = 0 from rfl, h] at hok
    obtain rfl := Except.ok.inj hok
    rw [← textRows_flatten fun part hpart => (hparted.bounded part hpart).2.2, hparted.whole, List.nil_append,
      textRows_closedRows hrows]

/-! ### The outputs -/

def stagedRows (staged : List Staged) : List Text := staged.flatMap fun s => textRows s.body

/-- The names that outputs have. -/
def IsOutputName (name : Text) : Prop :=
  ∃ ms, name = compactedArchiveName ms ∨ ∃ part, name = archivePartName (compactedArchiveName ms) part

theorem isRotation_of_ends {name : Text} (hstarts : "ledger.".toList <+: name) (hends : Text.endsWith name ".ndjson.gz" = true) :
    isRotation name = true := by
  have hlive : name ≠ "ledger.ndjson".toList := by
    rintro rfl
    exact absurd hends (by decide)
  unfold isRotation
  rw [List.isPrefixOf_iff_prefix.mpr hstarts, decide_eq_true hlive, hends]
  rfl

theorem endsWith_compactedArchiveName (ms : ℤ) : Text.endsWith (compactedArchiveName ms) ".ndjson.gz" = true := by
  unfold Text.endsWith compactedArchiveName
  exact List.isSuffixOf_iff_suffix.mpr (List.suffix_append _ _)

theorem take_beforeSuffix (front : Text) :
    (front ++ ".ndjson.gz".toList).take ((front ++ ".ndjson.gz".toList).length - 10) = front := by
  have hten : ".ndjson.gz".toList.length = 10 := rfl
  rw [List.length_append, hten, Nat.add_sub_cancel]
  exact List.take_left

theorem IsOutputName.isRotation {name : Text} (h : IsOutputName name) : Ledger.isRotation name = true := by
  obtain ⟨ms, rfl | ⟨part, rfl⟩⟩ := h
  · refine isRotation_of_ends ?_ (endsWith_compactedArchiveName ms)
    unfold compactedArchiveName
    rw [List.append_assoc]
    exact List.prefix_append _ _
  · have htake : (compactedArchiveName ms).take ((compactedArchiveName ms).length - 10) =
        "ledger.".toList ++ (toISOString ms).map (fun c => if c == ':' || c == '.' then '-' else c) := take_beforeSuffix _
    unfold archivePartName
    dsimp only
    rw [if_pos (endsWith_compactedArchiveName ms), htake]
    refine isRotation_of_ends ?_ ?_
    · rw [List.append_assoc]
      exact List.prefix_append _ _
    · rw [← List.append_assoc]
      exact List.isSuffixOf_iff_suffix.mpr (List.suffix_append _ _)

theorem isOutputName_freePartName (dir : StateDir) (staged : List Text) (ms : ℤ) (fuel part : ℕ) :
    IsOutputName (freePartName dir staged (compactedArchiveName ms) fuel part) := by
  induction fuel generalizing part with
  | zero => exact ⟨ms, .inr ⟨part, rfl⟩⟩
  | succ fuel ih =>
      unfold freePartName
      dsimp only
      split
      · exact ih (part + 1)
      · exact ⟨ms, .inr ⟨part, rfl⟩⟩

namespace Compaction

variable (C : Compaction)

theorem isOutputName_outputName (dir : StateDir) (selected staged : List Text) (d : DayBucket) (last : Bool) (index : ℕ)
    (body : Text) : IsOutputName (C.outputName dir selected staged d last index body) := by
  unfold outputName
  dsimp only
  split
  · exact ⟨d.newestMs, .inl rfl⟩
  · split
    next => exact isOutputName_freePartName dir staged d.newestMs _ _
    next timedName htimed =>
      split
      · unfold archiveNameForChunk at htimed
        split at htimed
        · cases htimed
        · exact ⟨_, .inl (Option.some.inj htimed).symm⟩
      · exact isOutputName_freePartName dir staged d.newestMs _ _

/-- An output on the path of a source is the last of its day and has the name of the day, unless the time of its rows is the
name of the source. -/
theorem outputName_onSource {dir : StateDir} {selected staged : List Text} {d : DayBucket} {last : Bool} {index : ℕ}
    {body : Text} (hselected : ∀ name ∈ selected, name ∈ dir.names)
    (htimed : ∀ name, C.archiveNameForChunk d body = some name → name ≠ compactedArchiveName d.newestMs → name ∉ selected)
    (h : C.outputName dir selected staged d last index body ∈ selected) :
    last = true ∧ C.outputName dir selected staged d last index body = compactedArchiveName d.newestMs := by
  have hpart := freePartName_fresh dir staged d.newestMs (index + 1)
  rw [List.mem_append, not_or] at hpart
  unfold outputName at h ⊢
  dsimp only at h ⊢
  split at h
  next hbase => exact ⟨(Bool.and_eq_true_iff.mp hbase).1, if_pos hbase⟩
  next hbase =>
    split at h
    next => exact absurd (hselected _ h) hpart.1
    next timedName hname =>
      split at h
      next hmay => exact absurd h (htimed timedName hname hmay.1)
      next => exact absurd (hselected _ h) hpart.1

/-- What the parts of a day become. -/
structure Outputs (selected : List Text) (d : DayBucket) (parts : List Text) (outputs : List Staged) : Prop where
  bodies : outputs.map Staged.body = parts
  names : ∀ s ∈ outputs, IsOutputName s.name
  onSource : (∀ body ∈ parts, ∀ name, C.archiveNameForChunk d body = some name → name ≠ compactedArchiveName d.newestMs →
    name ∉ selected) → ∀ front s back, outputs = front ++ s :: back → s.name ∈ selected →
      back = [] ∧ s.name = compactedArchiveName d.newestMs

theorem stageParts_outputs {dir : StateDir} {selected : List Text} (hselected : ∀ name ∈ selected, name ∈ dir.names)
    (d : DayBucket) (parts : List Text) (index : ℕ) (staged : List Staged) :
    ∃ outputs, C.stageParts dir selected d parts index staged = staged ++ outputs ∧ C.Outputs selected d parts outputs := by
  induction parts generalizing index staged with
  | nil =>
      refine ⟨[], (List.append_nil _).symm, rfl, fun s hs => absurd hs List.not_mem_nil, ?_⟩
      intro _ front s back h
      exact absurd h.symm (by simp)
  | cons body rest ih =>
      let s₀ : Staged := ⟨C.outputName dir selected (staged.map Staged.name) d rest.isEmpty index body, body⟩
      obtain ⟨outputs, hstage, hout⟩ := ih (index + 1) (staged ++ [s₀])
      refine ⟨s₀ :: outputs, ?_, ?_, ?_, ?_⟩
      · rw [stageParts, hstage, List.append_assoc]
        rfl
      · rw [List.map_cons, hout.bodies]
      · intro s hs
        obtain rfl | hs := List.mem_cons.mp hs
        · exact C.isOutputName_outputName dir selected _ d rest.isEmpty index body
        · exact hout.names s hs
      · intro htimed front s back hsplit hs
        cases front with
        | nil =>
            obtain ⟨rfl, rfl⟩ := List.cons.inj hsplit
            obtain ⟨hlast, hname⟩ := C.outputName_onSource hselected (htimed body List.mem_cons_self) hs
            have hrest : rest = [] := List.isEmpty_iff.mp hlast
            refine ⟨List.map_eq_nil_iff.mp (hout.bodies.trans hrest), hname⟩
        | cons s' front =>
            obtain ⟨-, hsplit⟩ := List.cons.inj hsplit
            exact hout.onSource (fun b hb => htimed b (List.mem_cons_of_mem body hb)) front s back hsplit hs

end Compaction

theorem stagedRows_append (a b : List Staged) : stagedRows (a ++ b) = stagedRows a ++ stagedRows b := List.flatMap_append

theorem dayRows_append (a b : List DayBucket) : dayRows (a ++ b) = dayRows a ++ dayRows b := List.flatMap_append

theorem stagedRows_eq (staged : List Staged) : stagedRows staged = (staged.map Staged.body).flatMap textRows := by
  rw [stagedRows, List.flatMap_map]

namespace Compaction

variable (C : Compaction)

/-- No source has the name that a part of a day gets from the time of its own rows. -/
def Untimed (days : List DayBucket) (selected : List Text) : Prop :=
  ∀ d ∈ days, ∀ parts, splitArchiveBody C.maxArchiveBytes (bodyOf d.rows) = .ok parts → ∀ body ∈ parts, ∀ name,
    C.archiveNameForChunk d body = some name → name ≠ compactedArchiveName d.newestMs → name ∉ selected

/-- The outputs of the days. -/
structure DayOutputs (selected : List Text) (days : List DayBucket) (outputs : List Staged) : Prop where
  rows : stagedRows outputs = dayRows days
  names : ∀ s ∈ outputs, IsOutputName s.name
  /-- an output on the path of a source closes the day that the source has the name of -/
  onSource : C.Untimed days selected → ∀ front s back, outputs = front ++ s :: back → s.name ∈ selected →
    ∃ before d after, days = before ++ d :: after ∧ s.name = compactedArchiveName d.newestMs ∧
      stagedRows (front ++ [s]) = dayRows (before ++ [d])

theorem stageDays_outputs {dir : StateDir} {selected : List Text} (hselected : ∀ name ∈ selected, name ∈ dir.names)
    (days : List DayBucket) (hdays : ∀ d ∈ days, Filed d) {staged after : List Staged}
    (h : C.stageDays dir selected days staged = .ok after) :
    ∃ outputs, after = staged ++ outputs ∧ C.DayOutputs selected days outputs := by
  induction days generalizing staged with
  | nil =>
      obtain rfl := Except.ok.inj h
      refine ⟨[], (List.append_nil _).symm, rfl, fun s hs => absurd hs List.not_mem_nil, ?_⟩
      intro _ front s back hsplit
      exact absurd hsplit.symm (by simp)
  | cons d days ih =>
      unfold stageDays at h
      cases hparts : splitArchiveBody C.maxArchiveBytes (bodyOf d.rows) with
      | error message =>
          rw [hparts] at h
          cases h
      | ok parts =>
          rw [hparts] at h
          dsimp only at h
          obtain ⟨first, hstage, hfirst⟩ := C.stageParts_outputs hselected d parts 0 staged
          rw [hstage] at h
          obtain ⟨rest, rfl, hrest⟩ := ih (fun d' hd' => hdays d' (List.mem_cons_of_mem d hd')) h
          have hfiled := hdays d List.mem_cons_self
          have hrows : stagedRows first = d.rows := by
            rw [stagedRows_eq, hfirst.bodies, textRows_parts hfiled.ne_nil hfiled.rows hparts]
          refine ⟨first ++ rest, List.append_assoc _ _ _, ?_, ?_, ?_⟩
          · rw [stagedRows_append, hrows, hrest.rows]
            rfl
          · intro s hs
            exact (List.mem_append.mp hs).elim (hfirst.names s) (hrest.names s)
          · intro htimed front s back hsplit hs
            obtain ⟨middle, hfront, hback⟩ | ⟨middle, hfront, hback⟩ := List.append_eq_append_iff.mp hsplit
            · -- the output is one of a later day
              obtain ⟨before, d', after, rfl, hname, hfrontRows⟩ := hrest.onSource
                (fun d' hd' => htimed d' (List.mem_cons_of_mem d hd')) middle s back hback hs
              refine ⟨d :: before, d', after, rfl, hname, ?_⟩
              rw [hfront, List.append_assoc, stagedRows_append, hrows, hfrontRows]
              rfl
            · cases middle with
              | nil =>
                  obtain ⟨before, d', after, rfl, hname, hfrontRows⟩ := hrest.onSource
                    (fun d' hd' => htimed d' (List.mem_cons_of_mem d hd')) [] s back hback.symm hs
                  refine ⟨d :: before, d', after, rfl, hname, ?_⟩
                  rw [List.append_nil] at hfront
                  rw [← hfront, stagedRows_append, hrows, ← List.nil_append [s], hfrontRows]
                  rfl
              | cons s' middle =>
                  obtain ⟨rfl, hback⟩ := List.cons.inj hback
                  obtain ⟨rfl, hname⟩ := hfirst.onSource (htimed d List.mem_cons_self parts hparts) front s middle hfront hs
                  refine ⟨[], d, days, rfl, hname, ?_⟩
                  rw [← hfront, hrows]
                  exact (List.append_nil _).symm

theorem filed_compactedDays (now : ℤ) (sources : List LedgerFile) : ∀ d ∈ C.compactedDays now sources, Filed d := by
  intro d hd
  refine ⟨?_, fun row hrow => ?_⟩
  · obtain ⟨row, hrow, -⟩ := C.compactedDays_nonblank now sources d hd
    exact List.ne_nil_of_mem hrow
  · have hsource := C.mem_dayRows_compactedDays.mp (List.mem_flatMap.mpr ⟨d, hd, hrow⟩)
    rw [sourceLines_eq] at hsource
    obtain ⟨f, -, hf⟩ := List.mem_flatMap.mp hsource
    exact isRow_of_mem_textRows hf

/-- The outputs have exactly the rows of the sources. -/
theorem DayOutputs.mem_stagedRows {selected : List Text} {now : ℤ} {sources : List LedgerFile} {outputs : List Staged}
    (h : C.DayOutputs selected (C.compactedDays now sources) outputs) {row : Text} :
    row ∈ stagedRows outputs ↔ ∃ f ∈ sources, row ∈ textRows f.content := by
  rw [h.rows, C.mem_dayRows_compactedDays, sourceLines_eq, List.mem_flatMap]

end Compaction

/-! ### Files after steps -/

namespace StateDir

theorem mem_files_write {dir : StateDir} {f g : LedgerFile} :
    g ∈ (dir.write f).files ↔ g = f ∨ g ∈ dir.files ∧ g.name ≠ f.name := by
  simp only [write, removed, List.mem_append, List.mem_filter, List.mem_singleton, decide_eq_true_eq]
  exact or_comm

theorem mem_files_remove {dir : StateDir} {name : Text} {g : LedgerFile} :
    g ∈ (dir.remove name).files ↔ g ∈ dir.files ∧ g.name ≠ name := by
  simp only [remove, removed, List.mem_filter, decide_eq_true_eq]

/-- The rows of the archives. -/
def rows (dir : StateDir) : List Text := dir.archives.flatMap fun f => textRows f.content

theorem mem_rows {dir : StateDir} {row : Text} :
    row ∈ dir.rows ↔ ∃ f ∈ dir.files, isRotation f.name = true ∧ row ∈ textRows f.content := by
  simp only [rows, archives, List.mem_flatMap, List.mem_filter, and_assoc]

theorem eq_of_name_eq {dir : StateDir} {f g : LedgerFile} (hf : f ∈ dir.files) (hg : g ∈ dir.files) (h : f.name = g.name) :
    f = g := List.inj_on_of_nodup_map dir.nodup hf hg h

end StateDir

theorem mem_files_writes {dir : StateDir} {g : LedgerFile} (fs : List LedgerFile) (hnodup : (fs.map LedgerFile.name).Nodup) :
    g ∈ ((fs.map CompactStep.write).foldl CompactStep.apply dir).files ↔
      g ∈ fs ∨ g ∈ dir.files ∧ g.name ∉ fs.map LedgerFile.name := by
  induction fs generalizing dir with
  | nil => simp
  | cons f fs ih =>
      rw [List.map_cons, List.nodup_cons] at hnodup
      rw [List.map_cons, List.foldl_cons, ih hnodup.2, CompactStep.apply, mem_files_write, List.map_cons, List.mem_cons,
        List.mem_cons]
      constructor
      · rintro (hg | ⟨rfl | ⟨hg, hne⟩, hout⟩)
        · exact .inl (.inr hg)
        · exact .inl (.inl rfl)
        · exact .inr ⟨hg, not_or.mpr ⟨hne, hout⟩⟩
      · rintro ((rfl | hg) | ⟨hg, hout⟩)
        · exact .inr ⟨.inl rfl, hnodup.1⟩
        · exact .inl hg
        · exact .inr ⟨.inr ⟨hg, (not_or.mp hout).1⟩, (not_or.mp hout).2⟩

theorem mem_files_coldStores {dir : StateDir} {g : LedgerFile} (moved : List Text) :
    g ∈ ((moved.map CompactStep.coldStore).foldl CompactStep.apply dir).files ↔ g ∈ dir.files ∧ g.name ∉ moved := by
  induction moved generalizing dir with
  | nil => simp
  | cons name moved ih =>
      rw [List.map_cons, List.foldl_cons, ih, CompactStep.apply, mem_files_remove, List.mem_cons, not_or, and_assoc]

/-! ### A pass -/

namespace Compaction

variable (C : Compaction)

/-- The steps that a pass makes durable, in order. -/
def durableSteps (now : ℤ) (dir : StateDir) : List CompactStep :=
  let sources := (C.selectLedgerCompactionSources dir now).sources
  let days := C.compactedDays now sources
  match C.stageDays dir (sources.map LedgerFile.name) days [] with
  | .error _ => []
  | .ok staged => if staged.isEmpty || decide (sources.length ≤ staged.length) then [] else C.steps days sources staged

/-- A pass that makes steps: what it selected and what it staged. -/
structure Pass (now : ℤ) (dir : StateDir) (sources : List LedgerFile) (staged : List Staged) : Prop where
  sources_mem : ∀ f ∈ sources, f ∈ dir.files ∧ isRotation f.name = true
  admissible : Admissible dir (sources.map LedgerFile.name) staged
  outputs : C.DayOutputs (sources.map LedgerFile.name) (C.compactedDays now sources) staged

theorem stageDays_admissible {dir : StateDir} {now : ℤ} {sources : List LedgerFile} {staged : List Staged}
    (h : C.stageDays dir (sources.map LedgerFile.name) (C.compactedDays now sources) [] = .ok staged) :
    Admissible dir (sources.map LedgerFile.name) staged := by
  have hspec := C.stageDays_spec (C.compactedDays now sources) (C.compactedDays_nonblank now sources)
    (Admissible.nil dir (sources.map LedgerFile.name))
  cases hcount : C.pieceCount (C.compactedDays now sources) with
  | none =>
      rw [hcount] at hspec
      obtain ⟨message, herror⟩ := hspec
      rw [h] at herror
      cases herror
  | some n =>
      rw [hcount] at hspec
      obtain ⟨after, hok, hstages⟩ := hspec
      rw [h] at hok
      obtain rfl := Except.ok.inj hok
      exact hstages.admissible

theorem durableSteps_cases (now : ℤ) (dir : StateDir) :
    C.durableSteps now dir = [] ∨ ∃ staged, C.Pass now dir (C.selectLedgerCompactionSources dir now).sources staged ∧
      C.durableSteps now dir = C.steps (C.compactedDays now (C.selectLedgerCompactionSources dir now).sources)
        (C.selectLedgerCompactionSources dir now).sources staged := by
  have hsources := (C.sources_spec dir now).2.1
  unfold durableSteps
  dsimp only
  generalize (C.selectLedgerCompactionSources dir now).sources = sources at hsources ⊢
  have hselected : ∀ name ∈ sources.map LedgerFile.name, name ∈ dir.names := by
    intro name hname
    obtain ⟨f, hf, rfl⟩ := List.mem_map.mp hname
    exact List.mem_map_of_mem (List.mem_filter.mp (hsources f hf)).1
  cases hstage : C.stageDays dir (sources.map LedgerFile.name) (C.compactedDays now sources) [] with
  | error message => exact .inl rfl
  | ok staged =>
      dsimp only
      split
      · exact .inl rfl
      · obtain ⟨outputs, hout, houtputs⟩ := C.stageDays_outputs hselected _ (C.filed_compactedDays now sources) hstage
        rw [List.nil_append] at hout
        exact .inr ⟨staged, ⟨fun f hf => List.mem_filter.mp (hsources f hf), C.stageDays_admissible hstage, hout ▸ houtputs⟩, rfl⟩

/-- The command makes the durable steps. -/
theorem dir_ledgerCompactCommand (now : ℤ) (dir : StateDir) :
    (C.ledgerCompactCommand false now dir).dir = (C.durableSteps now dir).foldl CompactStep.apply dir := by
  unfold ledgerCompactCommand durableSteps
  dsimp only
  generalize C.selectLedgerCompactionSources dir now = selection
  cases hstage : C.stageDays dir (selection.sources.map LedgerFile.name) (C.compactedDays now selection.sources) [] with
  | error message => rfl
  | ok staged =>
      dsimp only
      have hdecline : (staged.isEmpty || !staged.isEmpty && decide (selection.sources.length ≤ staged.length)) =
          (staged.isEmpty || decide (selection.sources.length ≤ staged.length)) := by
        cases staged.isEmpty <;> rfl
      have hfree : (staged.find? fun s => dir.has s.name && !(selection.sources.map LedgerFile.name).contains s.name) = none := by
        rw [List.find?_eq_none]
        intro s hs hbad
        rw [Bool.and_eq_true, names_has_iff, Bool.not_eq_true', ← Bool.not_eq_true, List.contains_iff_mem] at hbad
        exact hbad.2 ((C.stageDays_admissible hstage).overwrites s.name (List.mem_map_of_mem hs) hbad.1)
      rw [hdecline, hfree]
      split <;> rfl

variable {C} {now : ℤ} {dir : StateDir} {sources : List LedgerFile} {staged : List Staged}

/-- The first steps are the first writes and, once all are made, the first moves. -/
theorem take_steps (days : List DayBucket) (sources : List LedgerFile) (staged : List Staged) (k : ℕ) :
    (C.steps days sources staged).take k =
      ((staged.take k).map C.stagedFile).map CompactStep.write ++
        ((removals days sources).take (k - staged.length)).map CompactStep.coldStore := by
  rw [steps, List.take_append, List.length_map, ← List.map_take, ← List.map_take, List.map_map]
  rfl

/-- The files after some writes and some moves. -/
theorem Pass.mem_files (h : C.Pass now dir sources staged) (k : ℕ) (moved : List Text) {g : LedgerFile} :
    g ∈ ((((staged.take k).map C.stagedFile).map CompactStep.write ++ moved.map CompactStep.coldStore).foldl
        CompactStep.apply dir).files ↔
      (g ∈ (staged.take k).map C.stagedFile ∨ g ∈ dir.files ∧ g.name ∉ (staged.take k).map Staged.name) ∧ g.name ∉ moved := by
  have hnames : ((staged.take k).map C.stagedFile).map LedgerFile.name = (staged.take k).map Staged.name := by
    rw [List.map_map]
    rfl
  have hnodup : (((staged.take k).map C.stagedFile).map LedgerFile.name).Nodup := by
    rw [hnames]
    exact h.admissible.nodup.sublist ((List.take_sublist k staged).map _)
  rw [List.foldl_append, mem_files_coldStores, mem_files_writes _ hnodup, hnames]

/-- No output is moved away. -/
theorem Pass.kept (h : C.Pass now dir sources staged)
    (htimed : C.Untimed (C.compactedDays now sources) (sources.map LedgerFile.name)) :
    ∀ s ∈ staged, s.name ∉ removals (C.compactedDays now sources) sources := by
  intro s hs hmoved
  obtain ⟨hsource, hno⟩ := List.mem_filter.mp hmoved
  obtain ⟨front, back, hsplit⟩ := List.append_of_mem hs
  obtain ⟨before, d, after, hdays, hname, -⟩ := h.outputs.onSource htimed front s back hsplit hsource
  rw [Bool.not_eq_true', ← Bool.not_eq_true, List.contains_iff_mem] at hno
  refine hno (List.mem_map.mpr ⟨d, ?_, hname.symm⟩)
  rw [hdays]
  exact List.mem_append_right before List.mem_cons_self

/-- A source that an output has the name of. -/
theorem Pass.source_of_name (h : C.Pass now dir sources staged) {s : Staged} (hs : s ∈ staged) {f : LedgerFile}
    (hf : f ∈ dir.files) (hname : f.name = s.name) : f ∈ sources := by
  have hselected := h.admissible.overwrites s.name (List.mem_map_of_mem hs) (hname ▸ List.mem_map_of_mem hf)
  obtain ⟨g, hg, hgname⟩ := List.mem_map.mp hselected
  rwa [eq_of_name_eq hf (h.sources_mem g hg).1 (hname.trans hgname.symm)]

/-- A file that was not selected stays through all of the steps. -/
theorem Pass.mem_files_of_unselected (h : C.Pass now dir sources staged) {f : LedgerFile} (hf : f ∈ dir.files)
    (hsource : f ∉ sources) :
    f ∈ ((((staged.take staged.length).map C.stagedFile).map CompactStep.write ++
      (removals (C.compactedDays now sources) sources).map CompactStep.coldStore).foldl CompactStep.apply dir).files := by
  refine (h.mem_files staged.length _).mpr ⟨.inr ⟨hf, fun hname => ?_⟩, fun hmoved => ?_⟩
  · obtain ⟨s, hs, hsname⟩ := List.mem_map.mp hname
    exact hsource (h.source_of_name (List.mem_of_mem_take hs) hf hsname.symm)
  · obtain ⟨g, hg, hgname⟩ := List.mem_map.mp (List.mem_filter.mp hmoved).1
    rw [eq_of_name_eq hf (h.sources_mem g hg).1 hgname.symm] at hsource
    exact hsource hg

/-- A row that some of the outputs have is a row once they are written. -/
theorem Pass.mem_rows_of_output (h : C.Pass now dir sources staged) {k : ℕ} {moved : List Text} {s : Staged}
    (hs : s ∈ staged.take k) (hkept : s.name ∉ moved) {row : Text} (hrow : row ∈ textRows s.body) :
    row ∈ ((((staged.take k).map C.stagedFile).map CompactStep.write ++ moved.map CompactStep.coldStore).foldl
        CompactStep.apply dir).rows := by
  refine mem_rows.mpr ⟨C.stagedFile s, ?_, (h.outputs.names s (List.mem_of_mem_take hs)).isRotation, hrow⟩
  exact (h.mem_files k moved).mpr ⟨.inl (List.mem_map_of_mem hs), hkept⟩

/-- No source has the name of a day and a row of a later day, or one without a time while the day is not the last. -/
def InOrder (days : List DayBucket) (sources : List LedgerFile) : Prop :=
  ∀ before d after, days = before ++ d :: after → ∀ f ∈ sources, f.name = compactedArchiveName d.newestMs →
    ∀ row ∈ textRows f.content, row ∉ dayRows after

/-- While the outputs are written, a source is overwritten only when all of its rows are in outputs. -/
theorem Pass.covered (h : C.Pass now dir sources staged)
    (htimed : C.Untimed (C.compactedDays now sources) (sources.map LedgerFile.name))
    (horder : InOrder (C.compactedDays now sources) sources) {front back : List Staged} {s : Staged}
    (hsplit : staged = front ++ s :: back) {f : LedgerFile} (hf : f ∈ sources) (hname : f.name = s.name) {row : Text}
    (hrow : row ∈ textRows f.content) : row ∈ stagedRows (front ++ [s]) := by
  obtain ⟨before, d, after, hdays, hday, hrows⟩ :=
    h.outputs.onSource htimed front s back hsplit (hname ▸ List.mem_map_of_mem hf)
  have hfiled : row ∈ dayRows (C.compactedDays now sources) := by
    rw [C.mem_dayRows_compactedDays, sourceLines_eq]
    exact List.mem_flatMap.mpr ⟨f, hf, hrow⟩
  have hlater := horder before d after hdays f hf (hname.trans hday) row hrow
  rw [hdays, List.append_cons, dayRows_append, List.mem_append] at hfiled
  rw [hrows]
  exact hfiled.resolve_right hlater

/-- What the steps of a pass leave of the rows, however many of them are made. -/
theorem Pass.rows_kept (h : C.Pass now dir sources staged)
    (htimed : C.Untimed (C.compactedDays now sources) (sources.map LedgerFile.name))
    (horder : InOrder (C.compactedDays now sources) sources) (k : ℕ) {row : Text} (hrow : row ∈ dir.rows) :
    row ∈ (((C.steps (C.compactedDays now sources) sources staged).take k).foldl CompactStep.apply dir).rows := by
  obtain ⟨f, hf, hrotation, hrow⟩ := mem_rows.mp hrow
  rw [take_steps]
  have hkept : ∀ s ∈ staged, s.name ∉ (removals (C.compactedDays now sources) sources).take (k - staged.length) :=
    fun s hs hmoved => h.kept htimed s hs (List.mem_of_mem_take hmoved)
  by_cases hover : ∃ s ∈ staged.take k, f.name = s.name
  · obtain ⟨s, hs, hname⟩ := hover
    obtain ⟨front, back, htake⟩ := List.append_of_mem hs
    have hsplit : staged = front ++ s :: (back ++ staged.drop k) := by
      rw [← List.cons_append, ← List.append_assoc, ← htake, List.take_append_drop]
    have hsource := h.source_of_name (List.mem_of_mem_take hs) hf hname
    have hmem := h.covered htimed horder hsplit hsource hname hrow
    obtain ⟨s', hs', hrow'⟩ := List.mem_flatMap.mp hmem
    have htaken : s' ∈ staged.take k := by
      rw [htake]
      rcases List.mem_append.mp hs' with hs' | hs'
      · exact List.mem_append_left _ hs'
      · rw [List.mem_singleton.mp hs']
        exact List.mem_append_right _ List.mem_cons_self
    exact h.mem_rows_of_output htaken (hkept s' (List.mem_of_mem_take htaken)) hrow'
  · push Not at hover
    by_cases hmoved : f.name ∈ (removals (C.compactedDays now sources) sources).take (k - staged.length)
    · -- a source is moved away after all outputs are written
      have hall : staged.take k = staged := by
        refine List.take_of_length_le ?_
        by_contra hlt
        rw [Nat.sub_eq_zero_of_le (by omega), List.take_zero] at hmoved
        cases hmoved
      obtain ⟨g, hg, hgname⟩ := List.mem_map.mp (List.mem_filter.mp (List.mem_of_mem_take hmoved)).1
      have hsource : f ∈ sources := by
        rwa [eq_of_name_eq hf (h.sources_mem g hg).1 hgname.symm]
      obtain ⟨s, hs, hrow'⟩ := List.mem_flatMap.mp (h.outputs.mem_stagedRows.mpr ⟨f, hsource, hrow⟩)
      exact h.mem_rows_of_output (hall.symm ▸ hs) (hkept s hs) hrow'
    · refine mem_rows.mpr ⟨f, (h.mem_files k _).mpr ⟨.inr ⟨hf, ?_⟩, hmoved⟩, hrotation, hrow⟩
      rintro hname
      obtain ⟨s, hs, heq⟩ := List.mem_map.mp hname
      exact hover s hs heq.symm

theorem Pass.mem_rows_after (h : C.Pass now dir sources staged)
    (htimed : C.Untimed (C.compactedDays now sources) (sources.map LedgerFile.name)) {row : Text} :
    row ∈ ((C.steps (C.compactedDays now sources) sources staged).foldl CompactStep.apply dir).rows ↔ row ∈ dir.rows := by
  have hsteps : C.steps (C.compactedDays now sources) sources staged =
      ((staged.take staged.length).map C.stagedFile).map CompactStep.write ++
        (removals (C.compactedDays now sources) sources).map CompactStep.coldStore := by
    rw [List.take_length, List.map_map]
    rfl
  rw [hsteps]
  constructor
  · intro hrow
    obtain ⟨g, hg, hrotation, hrow⟩ := mem_rows.mp hrow
    obtain ⟨hout | ⟨hold, -⟩, -⟩ := (h.mem_files staged.length _).mp hg
    · obtain ⟨s, hs, rfl⟩ := List.mem_map.mp hout
      have hstaged : row ∈ stagedRows staged := List.mem_flatMap.mpr ⟨s, List.mem_of_mem_take hs, hrow⟩
      obtain ⟨f, hf, hrow⟩ := h.outputs.mem_stagedRows.mp hstaged
      exact mem_rows.mpr ⟨f, (h.sources_mem f hf).1, (h.sources_mem f hf).2, hrow⟩
    · exact mem_rows.mpr ⟨g, hold, hrotation, hrow⟩
  · intro hrow
    obtain ⟨f, hf, hrotation, hrow⟩ := mem_rows.mp hrow
    by_cases hsource : f ∈ sources
    · obtain ⟨s, hs, hrow⟩ := List.mem_flatMap.mp (h.outputs.mem_stagedRows.mpr ⟨f, hsource, hrow⟩)
      refine h.mem_rows_of_output ?_ (h.kept htimed s hs) hrow
      rwa [List.take_length]
    · exact mem_rows.mpr ⟨f, h.mem_files_of_unselected hf hsource, hrotation, hrow⟩

variable (C)

/-- A crash after any number of steps loses no row. -/
theorem rows_after_crash (now : ℤ) (dir : StateDir)
    (htimed : C.Untimed (C.compactedDays now (C.selectLedgerCompactionSources dir now).sources)
      ((C.selectLedgerCompactionSources dir now).sources.map LedgerFile.name))
    (horder : InOrder (C.compactedDays now (C.selectLedgerCompactionSources dir now).sources)
      (C.selectLedgerCompactionSources dir now).sources) (k : ℕ) :
    ∀ row ∈ dir.rows, row ∈ (((C.durableSteps now dir).take k).foldl CompactStep.apply dir).rows := by
  intro row hrow
  obtain hnone | ⟨staged, hpass, hsteps⟩ := C.durableSteps_cases now dir
  · rw [hnone, List.take_nil]
    exact hrow
  · rw [hsteps]
    exact hpass.rows_kept htimed horder k hrow

/-- A pass keeps the rows, and every file that it did not select. -/
theorem rows_after_pass (now : ℤ) (dir : StateDir)
    (htimed : C.Untimed (C.compactedDays now (C.selectLedgerCompactionSources dir now).sources)
      ((C.selectLedgerCompactionSources dir now).sources.map LedgerFile.name)) :
    (∀ row, row ∈ (C.ledgerCompactCommand false now dir).dir.rows ↔ row ∈ dir.rows) ∧
      ∀ f ∈ dir.files, f ∉ (C.selectLedgerCompactionSources dir now).sources →
        f ∈ (C.ledgerCompactCommand false now dir).dir.files := by
  rw [C.dir_ledgerCompactCommand]
  obtain hnone | ⟨staged, hpass, hsteps⟩ := C.durableSteps_cases now dir
  · rw [hnone]
    exact ⟨fun row => Iff.rfl, fun f hf _ => hf⟩
  · rw [hsteps]
    refine ⟨fun row => hpass.mem_rows_after htimed, fun f hf hsource => ?_⟩
    have hkept := hpass.mem_files_of_unselected hf hsource
    rwa [List.take_length, List.map_map] at hkept

/-! ### Plain rotations -/

/-- No plain rotation has the name of an output. -/
theorem untimed_of_plain {days : List DayBucket} {selected : List Text}
    (h : ∀ name ∈ selected, Text.endsWith name ".ndjson.gz" = false) : C.Untimed days selected := by
  intro d _ parts _ body _ name hname _ hmem
  have hends : Text.endsWith name ".ndjson.gz" = true := by
    unfold archiveNameForChunk at hname
    split at hname
    · cases hname
    · rw [← Option.some.inj hname]
      exact endsWith_compactedArchiveName _
  rw [h name hmem] at hends
  cases hends

theorem inOrder_of_plain {days : List DayBucket} {sources : List LedgerFile}
    (h : ∀ f ∈ sources, Text.endsWith f.name ".ndjson.gz" = false) : InOrder days sources := by
  intro before d after _ f hf hname
  have hplain := h f hf
  rw [hname, endsWith_compactedArchiveName] at hplain
  cases hplain

end Compaction

/-- The two plain rotations of `oversizedDir`. -/
def plainDir : StateDir where
  files := oversizedDir.files.take 2
  nodup := by decide

theorem plain_sources (now : ℤ) :
    ∀ f ∈ (oversizedCompaction.selectLedgerCompactionSources plainDir now).sources, Text.endsWith f.name ".ndjson.gz" = false := by
  have hplain : ∀ f ∈ plainDir.files, Text.endsWith f.name ".ndjson.gz" = false := by decide
  intro f hf
  exact hplain f (List.mem_filter.mp ((oversizedCompaction.sources_spec plainDir now).2.1 f hf)).1

theorem plain_names (now : ℤ) :
    ∀ name ∈ (oversizedCompaction.selectLedgerCompactionSources plainDir now).sources.map LedgerFile.name,
      Text.endsWith name ".ndjson.gz" = false := by
  intro name hname
  obtain ⟨f, hf, rfl⟩ := List.mem_map.mp hname
  exact plain_sources now f hf

theorem mem_rows_plainDir : rowAt 1767139200001 "\x7d" ∈ plainDir.rows := by decide +kernel

theorem plainDir_after_crash : rowAt 1767139200001 "\x7d" ∈
    (((oversizedCompaction.durableSteps (hourly 0) plainDir).take 1).foldl CompactStep.apply plainDir).rows :=
  oversizedCompaction.rows_after_crash (hourly 0) plainDir (oversizedCompaction.untimed_of_plain (plain_names _))
    (Compaction.inOrder_of_plain (plain_sources _)) 1 _ mem_rows_plainDir

theorem plainDir_after_pass :
    rowAt 1767139200001 "\x7d" ∈ (oversizedCompaction.ledgerCompactCommand false (hourly 0) plainDir).dir.rows :=
  ((oversizedCompaction.rows_after_pass (hourly 0) plainDir (oversizedCompaction.untimed_of_plain (plain_names _))).1 _).mpr
    mem_rows_plainDir

end Remudero.Ledger
