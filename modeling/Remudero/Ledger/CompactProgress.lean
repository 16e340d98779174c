import Remudero.Ledger.Compact
import Remudero.Lib.Lines

/-! # Progress of compaction

What a pass of `ledgerCompactCommand` does to the number of archives.  The staged names are pairwise
distinct, and an archive that has one of them is a selected source (`stageDays_spec`); so a pass that
stages fewer parts than it has sources leaves fewer archives (`length_archives_pass`), and every other
pass leaves the directory as it is (`pass_of_not_productive`).

Selection is a function of the directory and the clock, so a pass that declines is made again.
`notStarved_iff`: repeated passes reach fewer archives exactly when at some time the files that are
preferred and fit hold their rows in fewer pieces than they are (`Productive`).  An eligible output of
an earlier pass that is over the ceiling is selected alone, and one source never stages less than one
part: `passes_of_repair` says that nothing is ever merged again. -/

namespace Remudero.Ledger

open Remudero.Lib

/-! ### Names in the directory -/

namespace StateDir

variable {dir : StateDir} {name : Text}

def names (dir : StateDir) : List Text := dir.files.map LedgerFile.name

theorem names_has_iff : dir.has name = true ↔ name ∈ dir.names := by
  simp [has, names]

theorem mem_names_remove {removed : Text} : name ∈ (dir.remove removed).names ↔ name ∈ dir.names ∧ name ≠ removed := by
  simp only [names, remove, StateDir.removed, List.mem_map, List.mem_filter, decide_eq_true_eq]
  constructor
  · rintro ⟨f, ⟨hf, hne⟩, rfl⟩
    exact ⟨⟨f, hf, rfl⟩, hne⟩
  · rintro ⟨⟨f, hf, rfl⟩, hne⟩
    exact ⟨f, ⟨hf, hne⟩, rfl⟩

theorem mem_names_write {f : LedgerFile} : name ∈ (dir.write f).names ↔ name ∈ dir.names ∨ name = f.name := by
  have hremoved : (dir.write f).names = (dir.remove f.name).names ++ [f.name] := by
    simp [names, write, remove]
  rw [hremoved, List.mem_append, List.mem_singleton, mem_names_remove]
  by_cases h : name = f.name
  · simp [h]
  · simp [h]

/-- The archives are as many as their names. -/
theorem length_archives (dir : StateDir) : dir.archives.length = (dir.names.filter isRotation).length := by
  unfold names archives
  rw [List.filter_map, List.length_map]
  rfl

end StateDir

open StateDir

theorem mem_names_writes {dir : StateDir} {name : Text} (fs : List LedgerFile) :
    name ∈ ((fs.map CompactStep.write).foldl CompactStep.apply dir).names ↔
      name ∈ dir.names ∨ name ∈ fs.map LedgerFile.name := by
  induction fs generalizing dir with
  | nil => simp
  | cons f fs ih =>
      rw [List.map_cons, List.foldl_cons, ih, CompactStep.apply, mem_names_write, List.map_cons, List.mem_cons,
        or_assoc]

theorem mem_names_coldStores {dir : StateDir} {name : Text} (removed : List Text) :
    name ∈ ((removed.map CompactStep.coldStore).foldl CompactStep.apply dir).names ↔
      name ∈ dir.names ∧ name ∉ removed := by
  induction removed generalizing dir with
  | nil => simp
  | cons r removed ih =>
      rw [List.map_cons, List.foldl_cons, ih, CompactStep.apply, mem_names_remove, List.mem_cons, not_or, and_assoc]

/-! ### Free names -/

theorem archivePartName_injective (newestMs : ℤ) :
    Function.Injective (archivePartName (compactedArchiveName newestMs)) := by
  intro m n h
  have hsuffix : Text.endsWith (compactedArchiveName newestMs) ".ndjson.gz" = true := by
    unfold Text.endsWith compactedArchiveName
    exact List.isSuffixOf_iff_suffix.mpr (List.suffix_append _ _)
  unfold archivePartName at h
  rw [if_pos hsuffix, if_pos hsuffix] at h
  have hnumber := List.append_cancel_right (List.append_cancel_left h)
  exact padded_injective 6 (List.append_cancel_left hnumber)

/-- If the search ends at a taken name, it met taken names only. -/
theorem taken_of_freePartName {dir : StateDir} {staged : List Text} {name : Text} (fuel part : ℕ)
    (h : freePartName dir staged name fuel part ∈ dir.names ++ staged) :
    ∀ k ≤ fuel, archivePartName name (part + k) ∈ dir.names ++ staged := by
  induction fuel generalizing part with
  | zero =>
      intro k hk
      rw [Nat.le_zero.mp hk]
      exact h
  | succ fuel ih =>
      have htaken : ∀ n : Text, (dir.has n || staged.contains n) = true ↔ n ∈ dir.names ++ staged := by
        intro n
        rw [Bool.or_eq_true, names_has_iff, List.contains_iff_mem, List.mem_append]
      by_cases hpart : archivePartName name part ∈ dir.names ++ staged
      · have hnext : freePartName dir staged name (fuel + 1) part = freePartName dir staged name fuel (part + 1) :=
          if_pos ((htaken _).mpr hpart)
        rw [hnext] at h
        intro k hk
        cases k with
        | zero => exact hpart
        | succ k =>
            have := ih (part + 1) h k (by omega)
            rwa [Nat.add_right_comm] at this
      · have hstop : freePartName dir staged name (fuel + 1) part = archivePartName name part :=
          if_neg (mt (htaken _).mp hpart)
        rw [hstop] at h
        exact absurd h hpart

theorem freePartName_fresh (dir : StateDir) (staged : List Text) (newestMs : ℤ) (part : ℕ) :
    freePartName dir staged (compactedArchiveName newestMs) (dir.files.length + staged.length) part ∉
      dir.names ++ staged := by
  intro h
  have htaken := taken_of_freePartName _ _ h
  -- one more name than there are taken ones
  let tried := (List.range (dir.files.length + staged.length + 1)).map fun k =>
    archivePartName (compactedArchiveName newestMs) (part + k)
  have hnodup : tried.Nodup := by
    refine List.nodup_range.map fun k l hkl => ?_
    exact Nat.add_left_cancel (archivePartName_injective newestMs hkl)
  have hsub : tried ⊆ dir.names ++ staged := by
    intro n hn
    obtain ⟨k, hk, rfl⟩ := List.mem_map.mp hn
    exact htaken k (by simpa [Nat.lt_succ_iff] using hk)
  have hle := (List.subperm_of_subset hnodup hsub).length_le
  simp only [tried, List.length_map, List.length_range, List.length_append, StateDir.names] at hle
  omega

/-! ### Staging -/

theorem mayWrite_iff {dir : StateDir} {selected staged : List Text} {name : Text} :
    mayWrite dir selected staged name = true ↔ (name ∈ dir.names → name ∈ selected) ∧ name ∉ staged := by
  unfold mayWrite
  rw [Bool.and_eq_true, Bool.or_eq_true, Bool.not_eq_true', List.contains_iff_mem, Bool.not_eq_true',
    ← Bool.not_eq_true (List.contains _ _), List.contains_iff_mem, ← Bool.not_eq_true (dir.has name), names_has_iff,
    imp_iff_not_or]

/-- The staged names are distinct, and only selected sources have one of them. -/
structure Admissible (dir : StateDir) (selected : List Text) (staged : List Staged) : Prop where
  nodup : (staged.map Staged.name).Nodup
  overwrites : ∀ name ∈ staged.map Staged.name, name ∈ dir.names → name ∈ selected

theorem Admissible.nil (dir : StateDir) (selected : List Text) : Admissible dir selected [] :=
  ⟨List.nodup_nil, nofun⟩

theorem Admissible.snoc {dir : StateDir} {selected : List Text} {staged : List Staged}
    (h : Admissible dir selected staged) {s : Staged} (hfresh : s.name ∉ staged.map Staged.name)
    (hover : s.name ∈ dir.names → s.name ∈ selected) : Admissible dir selected (staged ++ [s]) where
  nodup := by
    rw [List.map_append, List.map_singleton, ← List.concat_eq_append]
    exact h.nodup.concat hfresh
  overwrites := by
    intro name hname
    rw [List.map_append, List.map_singleton, List.mem_append, List.mem_singleton] at hname
    rcases hname with hname | rfl
    · exact h.overwrites name hname
    · exact hover

namespace Compaction

variable (C : Compaction)

theorem outputName_spec (dir : StateDir) (selected staged : List Text) (d : DayBucket) (last : Bool) (index : ℕ)
    (body : Text) :
    C.outputName dir selected staged d last index body ∉ staged ∧
      (C.outputName dir selected staged d last index body ∈ dir.names →
        C.outputName dir selected staged d last index body ∈ selected) := by
  have hpart := freePartName_fresh dir staged d.newestMs (index + 1)
  rw [List.mem_append, not_or] at hpart
  unfold outputName
  dsimp only
  split_ifs with hbase
  · rw [Bool.and_eq_true, mayWrite_iff] at hbase
    exact ⟨hbase.2.2, hbase.2.1⟩
  · split
    · exact ⟨hpart.2, fun h => absurd h hpart.1⟩
    · split_ifs with htimed
      · rw [mayWrite_iff] at htimed
        exact ⟨htimed.2.2, htimed.2.1⟩
      · exact ⟨hpart.2, fun h => absurd h hpart.1⟩

/-- The last part of a day takes the name of the day, unless another part has it. -/
theorem outputName_last {dir : StateDir} {selected staged : List Text} {d : DayBucket} {index : ℕ} {body : Text}
    (hover : compactedArchiveName d.newestMs ∈ selected) (hfresh : compactedArchiveName d.newestMs ∉ staged) :
    C.outputName dir selected staged d true index body = compactedArchiveName d.newestMs := by
  have hmay := mayWrite_iff.mpr ⟨fun _ : compactedArchiveName d.newestMs ∈ dir.names => hover, hfresh⟩
  unfold outputName
  dsimp only
  rw [Bool.true_and, if_pos hmay]

/-- What staging adds to what was staged. -/
structure Stages (dir : StateDir) (selected : List Text) (days : List DayBucket) (parts : ℕ)
    (before after : List Staged) : Prop where
  admissible : Admissible dir selected after
  mono : ∀ name ∈ before.map Staged.name, name ∈ after.map Staged.name
  length : after.length = before.length + parts
  covers : ∀ d ∈ days, compactedArchiveName d.newestMs ∈ selected →
    compactedArchiveName d.newestMs ∈ after.map Staged.name

theorem stageParts_spec {dir : StateDir} {selected : List Text} (d : DayBucket) (parts : List Text) (index : ℕ)
    {staged : List Staged} (h : Admissible dir selected staged) :
    Stages dir selected (if parts = [] then [] else [d]) parts.length staged
      (C.stageParts dir selected d parts index staged) := by
  induction parts generalizing index staged with
  | nil => exact ⟨h, fun _ hn => hn, rfl, nofun⟩
  | cons body rest ih =>
      have hname := C.outputName_spec dir selected (staged.map Staged.name) d rest.isEmpty index body
      let s : Staged := ⟨C.outputName dir selected (staged.map Staged.name) d rest.isEmpty index body, body⟩
      have hs : Admissible dir selected (staged ++ [s]) := h.snoc hname.1 hname.2
      have hih := ih (index + 1) hs
      rw [List.length_cons, if_neg (List.cons_ne_nil body rest)]
      refine ⟨hih.admissible, ?_, ?_, ?_⟩
      · intro name hname
        refine hih.mono name ?_
        rw [List.map_append, List.mem_append]
        exact .inl hname
      · have hlen := hih.length
        rw [List.length_append, List.length_singleton] at hlen
        show (C.stageParts dir selected d rest (index + 1) (staged ++ [s])).length = _
        omega
      · intro d' hd' hsel
        rw [List.mem_singleton.mp hd'] at hsel ⊢
        by_cases hrest : rest = []
        · refine hih.mono _ ?_
          rw [List.map_append, List.map_singleton, List.mem_append, List.mem_singleton]
          by_cases hstaged : compactedArchiveName d.newestMs ∈ staged.map Staged.name
          · exact .inl hstaged
          · have hlast : rest.isEmpty = true := List.isEmpty_iff.mpr hrest
            refine .inr ?_
            show _ = C.outputName dir selected (staged.map Staged.name) d rest.isEmpty index body
            rw [hlast, C.outputName_last hsel hstaged]
        · rw [if_neg hrest] at hih
          exact hih.covers d List.mem_cons_self hsel

end Compaction

/-! ### The parts of a day -/

theorem splitRows_ne_nil {maxArchiveBytes : ℕ} (rows current : List Text) (currentBytes : ℕ) {parts : List Text}
    (h : splitRows maxArchiveBytes rows current currentBytes = .ok parts) (hne : rows ≠ [] ∨ current ≠ []) :
    parts ≠ [] := by
  induction rows generalizing current currentBytes parts with
  | nil =>
      have hcurrent : current ≠ [] := hne.resolve_left fun h => h rfl
      rw [splitRows, if_neg hcurrent] at h
      cases h
      exact List.cons_ne_nil _ _
  | cons row rest ih =>
      unfold splitRows at h
      dsimp only at h
      split_ifs at h
      · cases hrest : splitRows maxArchiveBytes rest [row] (Text.byteLength row + 1) with
        | error message =>
            rw [hrest] at h
            cases h
        | ok more =>
            rw [hrest] at h
            cases h
            exact List.cons_ne_nil _ _
      · exact ih _ _ h (.inr (by simp))

theorem splitBy_eq_singleton_nil {p : Char → Bool} {t : Text} (h : Text.splitBy p t = [[]]) : t = [] := by
  cases t with
  | nil => rfl
  | cons c cs =>
      unfold Text.splitBy at h
      split_ifs at h
      · exact absurd (List.cons.inj h).2 (Text.splitBy_ne_nil p cs)
      · split at h <;> simp at h

theorem join_ne_nil {rows : List Text} (h : ∃ row ∈ rows, row ≠ []) : Text.join ['\n'] rows ≠ [] := by
  obtain ⟨row, hrow, hne⟩ := h
  obtain ⟨i, hi⟩ := List.mem_iff_getElem?.mp hrow
  intro hjoin
  unfold Text.join at hjoin
  rw [List.flatten_eq_nil_iff] at hjoin
  refine hne (hjoin row (List.mem_iff_getElem?.mpr ⟨2 * i, ?_⟩))
  rw [List.getElem?_intersperse_two_mul, hi]

/-- A day with a row has a part. -/
theorem splitArchiveBody_ne_nil {maxArchiveBytes : ℕ} {rows parts : List Text} (hrows : ∃ row ∈ rows, row ≠ [])
    (h : splitArchiveBody maxArchiveBytes (bodyOf rows) = .ok parts) : parts ≠ [] := by
  have hends : Text.endsWith (bodyOf rows) "\n" = true :=
    List.isSuffixOf_iff_suffix.mpr (List.suffix_append _ _)
  have hdrop : (bodyOf rows).dropLast = Text.join ['\n'] rows := List.dropLast_concat
  unfold splitArchiveBody at h
  rw [if_pos hends, hdrop] at h
  dsimp only at h
  split_ifs at h with hsplit
  · exact absurd (splitBy_eq_singleton_nil hsplit) (join_ne_nil hrows)
  · exact splitRows_ne_nil _ _ _ h (.inl (Text.splitBy_ne_nil _ _))

/-- The day has a row that is not blank. -/
def DayBucket.Nonblank (d : DayBucket) : Prop := ∃ row ∈ d.rows, row ≠ []

theorem addToDay_nonblank {ms : ℤ} {line : Text} (hline : line ≠ []) {days : List DayBucket}
    (h : ∀ d ∈ days, d.Nonblank) : ∀ d ∈ addToDay ms line days, d.Nonblank := by
  induction days with
  | nil =>
      intro d hd
      rw [addToDay, List.mem_singleton] at hd
      exact ⟨line, by simp [hd], hline⟩
  | cons b days ih =>
      intro d hd
      unfold addToDay at hd
      split_ifs at hd
      · rcases List.mem_cons.mp hd with rfl | hd
        · exact ⟨line, by simp, hline⟩
        · exact h d (List.mem_cons_of_mem b hd)
      · rcases List.mem_cons.mp hd with rfl | hd
        · exact h d List.mem_cons_self
        · exact ih (fun d hd => h d (List.mem_cons_of_mem b hd)) d hd

theorem addToDay_ne_nil (ms : ℤ) (line : Text) (days : List DayBucket) : addToDay ms line days ≠ [] := by
  cases days with
  | nil => exact List.cons_ne_nil _ _
  | cons b days =>
      unfold addToDay
      split_ifs <;> exact List.cons_ne_nil _ _

theorem addUndated_nonblank {undated : List Text} {days : List DayBucket} (h : ∀ d ∈ days, d.Nonblank) :
    ∀ d ∈ addUndated undated days, d.Nonblank := by
  induction days with
  | nil => nofun
  | cons b days ih =>
      intro d hd
      cases days with
      | nil =>
          rw [addUndated, List.mem_singleton] at hd
          obtain ⟨row, hrow, hne⟩ := h b List.mem_cons_self
          exact ⟨row, by simp [hd, hrow], hne⟩
      | cons b' days =>
          rcases List.mem_cons.mp hd with rfl | hd
          · exact h d List.mem_cons_self
          · exact ih (fun d hd => h d (List.mem_cons_of_mem b hd)) d hd

namespace Compaction

variable (C : Compaction)

theorem byDay_spec (now : ℤ) {rows : List Text} (hrows : ∀ row ∈ rows, row ≠ []) {days : List DayBucket}
    (h : ∀ d ∈ days, d.Nonblank) :
    (∀ d ∈ rows.foldl (C.fileRow now) days, d.Nonblank) ∧
      (rows.foldl (C.fileRow now) days = [] → days = [] ∧ ∀ row ∈ rows, (C.tsOf row).isNone) := by
  induction rows generalizing days with
  | nil => exact ⟨h, fun hnil => ⟨hnil, nofun⟩⟩
  | cons row rows ih =>
      have hrest := fun r hr => hrows r (List.mem_cons_of_mem row hr)
      rw [List.foldl_cons]
      cases hts : C.tsOf row with
      | none =>
          have hfile : C.fileRow now days row = days := by simp [fileRow, hts]
          rw [hfile]
          obtain ⟨hnonblank, hundated⟩ := ih hrest h
          refine ⟨hnonblank, fun hnil => ⟨(hundated hnil).1, ?_⟩⟩
          intro r hr
          rcases List.mem_cons.mp hr with rfl | hr
          · simp [hts]
          · exact (hundated hnil).2 r hr
      | some ts =>
          have hfile : C.fileRow now days row = addToDay (min ts now) row days := by simp [fileRow, hts]
          rw [hfile]
          obtain ⟨hnonblank, hundated⟩ := ih hrest (addToDay_nonblank (hrows row List.mem_cons_self) h)
          exact ⟨hnonblank, fun hnil => absurd (hundated hnil).1 (addToDay_ne_nil _ _ _)⟩

theorem dayBuckets_nonblank (now : ℤ) {rows : List Text} (hrows : ∀ row ∈ rows, row ≠ []) (hne : rows ≠ []) :
    ∀ d ∈ C.dayBuckets now rows, d.Nonblank := by
  have hstart : ∀ d ∈ ([] : List DayBucket), d.Nonblank := nofun
  obtain ⟨hnonblank, hundated⟩ := C.byDay_spec now hrows hstart
  unfold dayBuckets
  dsimp only
  by_cases hnil : rows.foldl (C.fileRow now) [] = []
  · rw [hnil]
    intro d hd
    obtain ⟨row, hrow⟩ := List.exists_mem_of_ne_nil rows hne
    simp only [List.isEmpty_nil, if_true, addUndated, List.mem_singleton, List.nil_append] at hd
    refine ⟨row, ?_, hrows row hrow⟩
    rw [hd]
    exact List.mem_filter.mpr ⟨hrow, (hundated hnil).2 row hrow⟩
  · rw [if_neg (by simpa using hnil)]
    exact addUndated_nonblank hnonblank

theorem compactedDays_nonblank (now : ℤ) (sources : List LedgerFile) :
    ∀ d ∈ C.compactedDays now sources, d.Nonblank := by
  intro d hd
  unfold compactedDays at hd
  dsimp only at hd
  split_ifs at hd with hnil
  · cases hd
  · refine C.dayBuckets_nonblank now ?_ (by simpa using hnil) d hd
    intro row hrow
    have hmem := (firstSeen_sublist some [] (sourceLines sources)).subset (List.mem_mergeSort.mp hrow)
    have hblank := (List.mem_filter.mp hmem).2
    simpa using hblank

/-- How many parts the days make, `none` if a row is over the ceiling. -/
def pieceCount : List DayBucket → Option ℕ
  | [] => some 0
  | d :: days =>
      match splitArchiveBody C.maxArchiveBytes (bodyOf d.rows) with
      | .error _ => none
      | .ok parts => (pieceCount days).map (parts.length + ·)

/-- Staging makes the pieces of the days, and does so whenever it can. -/
theorem stageDays_spec {dir : StateDir} {selected : List Text} (days : List DayBucket)
    (hdays : ∀ d ∈ days, d.Nonblank) {before : List Staged} (h : Admissible dir selected before) :
    match C.pieceCount days with
    | none => ∃ message, C.stageDays dir selected days before = .error message
    | some n => ∃ after, C.stageDays dir selected days before = .ok after ∧
        Stages dir selected days n before after := by
  induction days generalizing before with
  | nil => exact ⟨before, rfl, h, fun _ hn => hn, rfl, nofun⟩
  | cons d days ih =>
      unfold pieceCount stageDays
      cases hsplit : splitArchiveBody C.maxArchiveBytes (bodyOf d.rows) with
      | error message => exact ⟨message, rfl⟩
      | ok parts =>
          have hparts : parts ≠ [] := splitArchiveBody_ne_nil (hdays d List.mem_cons_self) hsplit
          have hd := C.stageParts_spec d parts 0 h
          rw [if_neg hparts] at hd
          have hih := ih (fun d' hd' => hdays d' (List.mem_cons_of_mem d hd')) hd.admissible
          dsimp only
          cases hcount : C.pieceCount days with
          | none =>
              rw [hcount] at hih
              exact hih
          | some n =>
              rw [hcount] at hih
              obtain ⟨after, hafter, hs⟩ := hih
              refine ⟨after, hafter, hs.admissible, ?_, ?_, ?_⟩
              · intro name hname
                exact hs.mono name (hd.mono name hname)
              · rw [hs.length, hd.length, Nat.add_assoc]
              · intro d' hd' hsel
                rcases List.mem_cons.mp hd' with rfl | hd'
                · exact hs.mono _ (hd.covers d' List.mem_cons_self hsel)
                · exact hs.covers d' hd' hsel

/-! ### Selection -/

theorem eligible_sublist (dir : StateDir) (now : ℤ) :
    (C.eligible dir now).Sublist (ledgerRotationEntries dir) := List.filter_sublist

theorem mem_archives_of_eligible {dir : StateDir} {now : ℤ} {f : LedgerFile} (h : f ∈ C.eligible dir now) :
    f ∈ dir.archives := List.mem_mergeSort.mp ((C.eligible_sublist dir now).subset h)

theorem nodup_eligible (dir : StateDir) (now : ℤ) : ((C.eligible dir now).map LedgerFile.name).Nodup := by
  have hentries : ((ledgerRotationEntries dir).map LedgerFile.name).Nodup :=
    ((List.mergeSort_perm _ _).map _).nodup_iff.mpr (dir.nodup.sublist (List.filter_sublist.map _))
  exact hentries.sublist ((C.eligible_sublist dir now).map _)

theorem candidates_spec (dir : StateDir) (now : ℤ) :
    ((C.candidates dir now).map LedgerFile.name).Nodup ∧ ∀ f ∈ C.candidates dir now, f ∈ C.eligible dir now := by
  have heligible := C.nodup_eligible dir now
  unfold candidates
  cases hrepair : C.repair dir now with
  | some f =>
      dsimp only
      refine ⟨?_, ?_⟩
      · rw [List.map_cons, List.nodup_cons]
        refine ⟨?_, heligible.sublist (List.filter_sublist.map _)⟩
        intro hmem
        obtain ⟨g, hg, hname⟩ := List.mem_map.mp hmem
        have hne := (List.mem_filter.mp hg).2
        simp [hname] at hne
      · intro g hg
        rcases List.mem_cons.mp hg with rfl | hg
        · exact List.mem_of_find?_eq_some hrepair
        · exact (List.mem_filter.mp hg).1
  | none =>
      dsimp only
      split_ifs
      · exact ⟨heligible, fun f hf => hf⟩
      · exact ⟨heligible.sublist (List.filter_sublist.map _), fun f hf => (List.mem_filter.mp hf).1⟩

theorem preferred_spec (dir : StateDir) (now : ℤ) :
    ((C.preferred dir now).map LedgerFile.name).Nodup ∧ ∀ f ∈ C.preferred dir now, f ∈ C.eligible dir now := by
  obtain ⟨hnodup, hsub⟩ := C.candidates_spec dir now
  unfold preferred
  cases hrepair : C.repair dir now with
  | some f => exact ⟨hnodup, hsub⟩
  | none =>
      dsimp only
      refine ⟨?_, ?_⟩
      · rw [List.map_append, List.nodup_append]
        refine ⟨hnodup.sublist (List.filter_sublist.map _), hnodup.sublist (List.filter_sublist.map _), ?_⟩
        intro a ha b hb hab
        obtain ⟨f, hf, rfl⟩ := List.mem_map.mp ha
        obtain ⟨g, hg, hgname⟩ := List.mem_map.mp hb
        obtain ⟨hf, hfcount⟩ := List.mem_filter.mp hf
        obtain ⟨hg, hgcount⟩ := List.mem_filter.mp hg
        -- the name says which file it is, and a day is counted once
        have hfg : f = g := List.inj_on_of_nodup_map hnodup hf hg (hab.trans hgname.symm)
        rw [hfg] at hfcount
        have hgt := of_decide_eq_true hfcount
        have heq := of_decide_eq_true hgcount
        omega
      · intro f hf
        rcases List.mem_append.mp hf with hf | hf
        · exact hsub f (List.mem_filter.mp hf).1
        · exact hsub f (List.mem_filter.mp hf).1

theorem takeWindow_prefix (repairing : Bool) (eligibleCount : ℕ) (window sources : List LedgerFile)
    (selectedBytes : ℕ) :
    (C.takeWindow repairing eligibleCount window sources selectedBytes).1 <+: sources ++ window := by
  induction window generalizing sources selectedBytes with
  | nil => exact List.prefix_append _ _
  | cons f rest ih =>
      unfold takeWindow
      by_cases halone : sources = [] ∧ C.maxArchiveBytes < C.measure f
      · rw [if_pos halone, halone.1]
        exact List.prefix_append [f] rest
      · rw [if_neg halone]
        split_ifs
        · exact List.prefix_append _ _
        · have := ih (sources ++ [f]) (selectedBytes + C.measure f)
          rwa [List.append_assoc] at this

/-- The longest run of files, from the first on, whose sizes fit in the budget. -/
def fitting : ℕ → List LedgerFile → List LedgerFile
  | _, [] => []
  | budget, f :: rest => if C.measure f ≤ budget then f :: fitting (budget - C.measure f) rest else []

/-- The window is taken while it fits, but for an oversized file at its head, which is taken alone. -/
theorem takeWindow_eq (repairing : Bool) (eligibleCount : ℕ) (window sources : List LedgerFile)
    {selectedBytes : ℕ} (h : selectedBytes ≤ C.maxArchiveBytes) :
    (C.takeWindow repairing eligibleCount window sources selectedBytes).1 =
        sources ++ C.fitting (C.maxArchiveBytes - selectedBytes) window ∨
      (C.takeWindow repairing eligibleCount window sources selectedBytes).1.length = 1 ∧
        sources ++ C.fitting (C.maxArchiveBytes - selectedBytes) window = [] := by
  induction window generalizing sources selectedBytes with
  | nil => exact .inl (by simp [takeWindow, fitting])
  | cons f rest ih =>
      unfold takeWindow fitting
      by_cases hover : C.maxArchiveBytes < selectedBytes + C.measure f
      · rw [if_neg (show ¬C.measure f ≤ C.maxArchiveBytes - selectedBytes by omega), List.append_nil]
        by_cases halone : sources = [] ∧ C.maxArchiveBytes < C.measure f
        · rw [if_pos halone]
          exact .inr ⟨rfl, halone.1⟩
        · rw [if_neg halone, if_pos hover]
          exact .inl rfl
      · have halone : ¬(sources = [] ∧ C.maxArchiveBytes < C.measure f) := by
          rintro ⟨-, hbig⟩
          omega
        rw [if_neg halone, if_neg hover, if_pos (show C.measure f ≤ C.maxArchiveBytes - selectedBytes by omega)]
        have hih := ih (sources ++ [f]) (show selectedBytes + C.measure f ≤ C.maxArchiveBytes by omega)
        rwa [Nat.sub_add_eq, List.append_assoc, List.singleton_append] at hih

/-- The files of a pass that fit, in the order in which they are preferred. -/
def window (dir : StateDir) (now : ℤ) : List LedgerFile :=
  C.fitting C.maxArchiveBytes ((C.preferred dir now).take (C.sourceLimit dir now))

theorem sources_spec (dir : StateDir) (now : ℤ) :
    let sources := (C.selectLedgerCompactionSources dir now).sources
    (sources.map LedgerFile.name).Nodup ∧ (∀ f ∈ sources, f ∈ dir.archives) ∧
      (sources = C.window dir now ∨ sources.length ≤ 1 ∧ (C.window dir now).length ≤ 1) := by
  obtain ⟨hnodup, hsub⟩ := C.preferred_spec dir now
  have hstarts := C.takeWindow_prefix (C.repair dir now).isSome (C.eligible dir now).length
    ((C.preferred dir now).take (C.sourceLimit dir now)) [] 0
  have heq := C.takeWindow_eq (C.repair dir now).isSome (C.eligible dir now).length
    ((C.preferred dir now).take (C.sourceLimit dir now)) [] (Nat.zero_le _)
  unfold selectLedgerCompactionSources
  dsimp only
  generalize C.takeWindow (C.repair dir now).isSome (C.eligible dir now).length
    ((C.preferred dir now).take (C.sourceLimit dir now)) [] 0 = taken at hstarts heq
  obtain ⟨sources, skipped, oversized⟩ := taken
  dsimp only at hstarts heq ⊢
  have hsublist := hstarts.sublist.trans (List.take_sublist _ (C.preferred dir now))
  rw [List.nil_append, Nat.sub_zero] at heq
  split_ifs with hlone
  · refine ⟨List.nodup_nil, nofun, .inr ⟨Nat.zero_le _, ?_⟩⟩
    have hone : sources.length = 1 := by
      simp only [Bool.and_eq_true, beq_iff_eq] at hlone
      exact hlone.1.2
    rcases heq with heq | ⟨-, hnil⟩
    · exact (congrArg List.length heq).symm.trans hone |>.le
    · exact (congrArg List.length hnil).le.trans (Nat.zero_le _)
  · refine ⟨hnodup.sublist (hsublist.map _), ?_, ?_⟩
    · intro f hf
      exact C.mem_archives_of_eligible (hsub f (hsublist.subset hf))
    · rcases heq with heq | ⟨hone, hnil⟩
      · exact .inl heq
      · exact .inr ⟨hone.le, (congrArg List.length hnil).le.trans (Nat.zero_le _)⟩

/-! ### A pass -/

/-- The rows of the files make fewer pieces than the files are, and at least one. -/
def Reduces (now : ℤ) (files : List LedgerFile) : Prop :=
  ∃ n, C.pieceCount (C.compactedDays now files) = some n ∧ 0 < n ∧ n < files.length

/-- At the time `now`, the files that are preferred and fit hold their rows in fewer pieces than they are. -/
def Productive (dir : StateDir) (now : ℤ) : Prop := C.Reduces now (C.window dir now)

theorem not_reduces_of_length_le_one {now : ℤ} {files : List LedgerFile} (h : files.length ≤ 1) :
    ¬C.Reduces now files := by
  rintro ⟨n, -, hpos, hlt⟩
  omega

theorem reduces_sources_iff (dir : StateDir) (now : ℤ) :
    C.Reduces now (C.selectLedgerCompactionSources dir now).sources ↔ C.Productive dir now := by
  rcases (C.sources_spec dir now).2.2 with heq | ⟨hsources, hwindow⟩
  · rw [heq, Productive]
  · exact iff_of_false (C.not_reduces_of_length_le_one hsources) (C.not_reduces_of_length_le_one hwindow)

/-- A pass that does not reduce leaves the directory as it is. -/
theorem pass_of_not_productive {dir : StateDir} {now : ℤ} (dryRun : Bool) (h : ¬C.Productive dir now) :
    (C.ledgerCompactCommand dryRun now dir).dir = dir := by
  rw [← C.reduces_sources_iff] at h
  unfold ledgerCompactCommand
  dsimp only
  generalize C.selectLedgerCompactionSources dir now = selection at h
  have hstage := C.stageDays_spec (C.compactedDays now selection.sources)
    (C.compactedDays_nonblank now selection.sources)
    (Admissible.nil dir (selection.sources.map LedgerFile.name))
  cases hcount : C.pieceCount (C.compactedDays now selection.sources) with
  | none =>
      rw [hcount] at hstage
      obtain ⟨message, hstage⟩ := hstage
      rw [hstage]
  | some n =>
      rw [hcount] at hstage
      obtain ⟨staged, hstage, hs⟩ := hstage
      rw [hstage]
      dsimp only
      have hlength : staged.length = n := by simpa using hs.length
      have hdecline : (staged.isEmpty || !staged.isEmpty && decide (selection.sources.length ≤ staged.length)) = true := by
        by_cases hn : n = 0
        · rw [hn, List.length_eq_zero_iff] at hlength
          simp [hlength]
        · have hle : selection.sources.length ≤ staged.length := by
            by_contra hlt
            exact h ⟨n, hcount, by omega, by omega⟩
          rw [decide_eq_true hle, Bool.and_true]
          cases staged.isEmpty <;> rfl
      rw [if_pos hdecline]

/-- A pass that reduces makes its steps. -/
theorem pass_of_productive {dir : StateDir} {now : ℤ} (h : C.Productive dir now) :
    let sources := (C.selectLedgerCompactionSources dir now).sources
    let days := C.compactedDays now sources
    ∃ staged, Stages dir (sources.map LedgerFile.name) days staged.length [] staged ∧
      staged.length < sources.length ∧
      (C.ledgerCompactCommand false now dir).dir = (C.steps days sources staged).foldl CompactStep.apply dir := by
  rw [← C.reduces_sources_iff] at h
  unfold ledgerCompactCommand
  dsimp only
  generalize C.selectLedgerCompactionSources dir now = selection at h
  obtain ⟨n, hcount, hpos, hlt⟩ := h
  have hstage := C.stageDays_spec (C.compactedDays now selection.sources)
    (C.compactedDays_nonblank now selection.sources)
    (Admissible.nil dir (selection.sources.map LedgerFile.name))
  rw [hcount] at hstage
  obtain ⟨staged, hstage, hs⟩ := hstage
  have hlength : staged.length = n := by simpa using hs.length
  refine ⟨staged, by rwa [hlength], by omega, ?_⟩
  rw [hstage]
  dsimp only
  have hgo : (staged.isEmpty || !staged.isEmpty && decide (selection.sources.length ≤ staged.length)) = false := by
    have hne : staged.isEmpty = false := by
      cases staged with
      | nil => exact absurd hlength (by simp; omega)
      | cons s staged => rfl
    have hle : ¬selection.sources.length ≤ staged.length := by omega
    simp [hne, hle]
  have hfind : (staged.find? fun s => dir.has s.name && !(selection.sources.map LedgerFile.name).contains s.name) = none := by
    rw [List.find?_eq_none]
    intro s hmem hbad
    rw [Bool.and_eq_true, names_has_iff, Bool.not_eq_true', ← Bool.not_eq_true, List.contains_iff_mem] at hbad
    exact hbad.2 (hs.admissible.overwrites s.name (List.mem_map_of_mem hmem) hbad.1)
  rw [hgo, hfind]
  rfl

theorem mem_names_steps {dir : StateDir} {name : Text} (days : List DayBucket) (sources : List LedgerFile)
    (staged : List Staged) :
    name ∈ ((C.steps days sources staged).foldl CompactStep.apply dir).names ↔
      (name ∈ dir.names ∨ name ∈ staged.map Staged.name) ∧ name ∉ removals days sources := by
  have hwrites : staged.map (fun s => CompactStep.write (C.stagedFile s)) =
      (staged.map C.stagedFile).map CompactStep.write := by simp
  have hnames : (staged.map C.stagedFile).map LedgerFile.name = staged.map Staged.name := by
    rw [List.map_map]
    rfl
  rw [steps, List.foldl_append, mem_names_coldStores, hwrites, mem_names_writes, hnames]

/-- What is left after the steps is staged, or was there and is not a source. -/
theorem names_steps_sub {dir : StateDir} {days : List DayBucket} {sources : List LedgerFile} {staged : List Staged}
    (h : Stages dir (sources.map LedgerFile.name) days staged.length [] staged) {name : Text}
    (hname : name ∈ ((C.steps days sources staged).foldl CompactStep.apply dir).names) :
    name ∈ staged.map Staged.name ∨ name ∈ dir.names ∧ name ∉ sources.map LedgerFile.name := by
  obtain ⟨hin, hkept⟩ := (C.mem_names_steps days sources staged).mp hname
  by_cases hsource : name ∈ sources.map LedgerFile.name
  · -- a source that is not removed has the name of a day, and then it was staged
    have hday : name ∈ days.map fun d => compactedArchiveName d.newestMs := by
      by_contra hno
      refine hkept (List.mem_filter.mpr ⟨hsource, ?_⟩)
      rw [Bool.not_eq_true', ← Bool.not_eq_true, List.contains_iff_mem]
      exact hno
    obtain ⟨d, hd, rfl⟩ := List.mem_map.mp hday
    exact .inl (h.covers d hd hsource)
  · rcases hin with hin | hin
    · exact .inr ⟨hin, hsource⟩
    · exact .inl hin

/-- A pass that reduces leaves fewer archives. -/
theorem length_archives_pass {dir : StateDir} {now : ℤ} (h : C.Productive dir now) :
    (C.ledgerCompactCommand false now dir).dir.archives.length < dir.archives.length := by
  obtain ⟨hnodup, harchives, -⟩ := C.sources_spec dir now
  obtain ⟨staged, hs, hlt, hdir⟩ := C.pass_of_productive h
  rw [hdir, length_archives, length_archives]
  generalize (C.selectLedgerCompactionSources dir now).sources = sources at *
  let selected := sources.map LedgerFile.name
  let others := (dir.names.filter isRotation).filter fun name => name ∉ selected
  have hselected : selected.length + others.length ≤ (dir.names.filter isRotation).length := by
    have hsub : selected ⊆ (dir.names.filter isRotation).filter fun name => name ∈ selected := by
      intro name hname
      obtain ⟨f, hf, rfl⟩ := List.mem_map.mp hname
      obtain ⟨hfile, hrotation⟩ := List.mem_filter.mp (harchives f hf)
      refine List.mem_filter.mpr ⟨List.mem_filter.mpr ⟨List.mem_map_of_mem hfile, hrotation⟩, ?_⟩
      exact decide_eq_true hname
    have hle : selected.length ≤ _ := (List.subperm_of_subset hnodup hsub).length_le
    have hsplit := List.length_eq_length_filter_add (l := dir.names.filter isRotation) fun name => decide (name ∈ selected)
    simp only [others, decide_not]
    omega
  have hafter : (((C.steps (C.compactedDays now sources) sources staged).foldl CompactStep.apply dir).names.filter
      isRotation).length ≤ staged.length + others.length := by
    have hsub : ((C.steps (C.compactedDays now sources) sources staged).foldl CompactStep.apply dir).names.filter
        isRotation ⊆ staged.map Staged.name ++ others := by
      intro name hname
      obtain ⟨hname, hrotation⟩ := List.mem_filter.mp hname
      rw [List.mem_append]
      rcases C.names_steps_sub hs hname with hstaged | ⟨hin, hout⟩
      · exact .inl hstaged
      · exact .inr (List.mem_filter.mpr ⟨List.mem_filter.mpr ⟨hin, hrotation⟩, decide_eq_true hout⟩)
    have hle := (List.subperm_of_subset (StateDir.nodup _ |>.filter _) hsub).length_le
    rwa [List.length_append, List.length_map] at hle
  have hsel : selected.length = sources.length := List.length_map _
  omega

/-! ### Repeated passes -/

/-- While no pass reduces, nothing changes. -/
theorem passes_of_not_productive {dir : StateDir} {now : ℕ → ℤ} (n : ℕ)
    (h : ∀ k < n, ¬C.Productive dir (now k)) : C.passes now dir n = dir := by
  induction n with
  | zero => rfl
  | succ n ih =>
      rw [passes, ih fun k hk => h k (by omega)]
      exact C.pass_of_not_productive false (h n (by omega))

/-- Two eligible ordinary rotations of one UTC day fit together under the ceiling. -/
def Mergeable (dir : StateDir) (now : ℤ) : Prop :=
  ∃ f ∈ C.rotations dir now, ∃ g ∈ C.rotations dir now, f ≠ g ∧ dayOf f = dayOf g ∧
    C.measure f + C.measure g ≤ C.maxArchiveBytes

/-- If there is something to merge, repeated passes reach fewer archives. -/
def NotStarved (dir : StateDir) (now : ℕ → ℤ) : Prop :=
  C.Mergeable dir (now 0) → ∃ n, (C.passes now dir n).archives.length < dir.archives.length

/-- Repeated passes reach fewer archives exactly when one of their times is productive. -/
theorem notStarved_iff (dir : StateDir) (now : ℕ → ℤ) :
    C.NotStarved dir now ↔ (C.Mergeable dir (now 0) → ∃ n, C.Productive dir (now n)) := by
  refine imp_congr_right fun _ => ⟨?_, ?_⟩
  · rintro ⟨n, hn⟩
    by_contra hnone
    push Not at hnone
    rw [C.passes_of_not_productive n fun k _ => hnone k] at hn
    exact lt_irrefl _ hn
  · intro hsome
    classical
    -- up to the first productive time the directory is what it was
    have hfirst : C.passes now dir (Nat.find hsome) = dir :=
      C.passes_of_not_productive (Nat.find hsome) fun k hk => Nat.find_min hsome hk
    refine ⟨Nat.find hsome + 1, ?_⟩
    rw [passes, hfirst]
    exact C.length_archives_pass (Nat.find_spec hsome)

/-- While an output of an earlier pass that is over the ceiling is eligible, no file fits. -/
theorem not_productive_of_repair {dir : StateDir} {now : ℤ} (h : (C.repair dir now).isSome) :
    ¬C.Productive dir now := by
  obtain ⟨f, hf⟩ := Option.isSome_iff_exists.mp h
  have hbig : C.maxArchiveBytes < C.measure f := by
    have := List.find?_some hf
    simp only [Bool.and_eq_true, decide_eq_true_eq] at this
    exact this.2
  have hwindow : C.window dir now = [] := by
    have hcandidates : C.preferred dir now = f :: (C.eligible dir now).filter fun g => g.name ≠ f.name := by
      simp [preferred, candidates, hf]
    unfold window
    rw [hcandidates]
    cases C.sourceLimit dir now with
    | zero => rfl
    | succ n =>
        rw [List.take_succ_cons, fitting, if_neg (by omega)]
  refine C.not_reduces_of_length_le_one ?_
  rw [hwindow]
  exact Nat.zero_le 1

theorem repair_mono {dir : StateDir} {now later : ℤ} (hle : now ≤ later) (h : (C.repair dir now).isSome) :
    (C.repair dir later).isSome := by
  unfold repair eligible at *
  rw [List.find?_isSome] at h ⊢
  obtain ⟨f, hf, hbig⟩ := h
  refine ⟨f, ?_, hbig⟩
  obtain ⟨hentry, hold⟩ := List.mem_filter.mp hf
  refine List.mem_filter.mpr ⟨hentry, ?_⟩
  obtain ⟨ms, hms, hlt⟩ := (Option.any_eq_true _ _).mp hold
  refine (Option.any_eq_true _ _).mpr ⟨ms, hms, decide_eq_true ?_⟩
  have hcast : (now : ℚ) ≤ later := by exact_mod_cast hle
  have := of_decide_eq_true hlt
  linarith

/-- An eligible output of an earlier pass that is over the ceiling stops compaction for good. -/
theorem passes_of_repair {dir : StateDir} {now : ℕ → ℤ} (hclock : ∀ n, now 0 ≤ now n)
    (h : (C.repair dir (now 0)).isSome) (n : ℕ) : C.passes now dir n = dir :=
  C.passes_of_not_productive n fun k _ => C.not_productive_of_repair (C.repair_mono (hclock k) h)

end Compaction

/-! ### An oversized output -/

/-- A row at the time `ms`. -/
def rowAt (ms : ℤ) (rest : String) : Text := "\x7b\"ts\":\"".toList ++ toISOString ms ++ "\"".toList ++ rest.toList

/-- The text of 40 rows of 2026-01-01. -/
def oversizedContent : Text :=
  (List.range 40).flatMap fun k => rowAt 1767225600000 ",\"n\":" ++ Nat.toDigits 10 (k + 10) ++ "\x7d\n".toList

/-- The times of `oversizedDir`, whose texts are the only ones that are read. -/
def oversizedTimes : List ℤ := [1767139200001, 1767139200002, 1767225600000]

/-- Two plain rotations of one day, and a compressed output of an earlier pass. -/
def oversizedDir : StateDir where
  files :=
    [⟨"ledger.2025-12-31T00-00-00-001Z.ndjson".toList, rowAt 1767139200001 "\x7d\n", 34, 34⟩,
      ⟨"ledger.2025-12-31T00-00-00-002Z.ndjson".toList, rowAt 1767139200002 "\x7d\n", 34, 34⟩,
      ⟨"ledger.2026-01-01T00-00-00-000Z.ndjson.gz".toList, oversizedContent, Text.byteLength oversizedContent, 157⟩]
  nodup := by decide

/-- A ceiling of 100 bytes and an age of seven days. -/
def oversizedCompaction : Compaction where
  dateParse := fun t => oversizedTimes.find? fun ms => toISOString ms = t
  gzipSize := Text.byteLength
  olderThanMs := 7 * 86400000
  maxSources := 50
  maxArchiveBytes := 100
  maxSources_pos := by decide
  maxSources_le := by decide
  maxArchiveBytes_pos := by decide
  maxArchiveBytes_le := by decide

theorem entries_oversizedDir : ledgerRotationEntries oversizedDir = oversizedDir.files := by
  have harchives : oversizedDir.archives = oversizedDir.files := by decide +kernel
  unfold ledgerRotationEntries
  rw [harchives]
  exact List.mergeSort_of_pairwise (by decide +kernel)

theorem medianSize_oversizedDir : medianSize oversizedDir.files = 34 := by
  have hsorted : [34, 34, 157].mergeSort (fun a b : ℕ => decide (a ≤ b)) = [34, 34, 157] :=
    List.mergeSort_of_pairwise (by decide)
  exact congrArg (List.getD · 1 0) hsorted

/-- A pass an hour, from 2026-02-02 on. -/
def hourly (n : ℕ) : ℤ := 1770000000000 + 3600000 * n

/-- The two rotations are never merged. -/
theorem oversized_output_starves : ¬oversizedCompaction.NotStarved oversizedDir hourly := by
  have hmergeable : oversizedCompaction.Mergeable oversizedDir (hourly 0) := by
    unfold Compaction.Mergeable Compaction.rotations Compaction.eligible mergedArchive
    rw [entries_oversizedDir, medianSize_oversizedDir]
    decide +kernel
  have hrepair : (oversizedCompaction.repair oversizedDir (hourly 0)).isSome := by
    unfold Compaction.repair Compaction.eligible mergedArchive
    rw [entries_oversizedDir, medianSize_oversizedDir]
    decide +kernel
  have hclock : ∀ n, hourly 0 ≤ hourly n := by
    intro n
    unfold hourly
    omega
  intro h
  obtain ⟨n, hn⟩ := h hmergeable
  rw [oversizedCompaction.passes_of_repair hclock hrepair n] at hn
  exact lt_irrefl _ hn

end Remudero.Ledger
