import Remudero.Ledger.Rotation

/-! # No rotation loses history

The invariant `Inv` of the rotating ledger: every appended row is in the live file or archived,
the directory is well named, the sidecar's digest is that of rows that are all archived, and the
effects still to be performed are safe one after the other (`SafeEffects`).  The last part is what
makes a crash harmless: any prefix of a safe list of effects leaves the other three standing.

The delta of a rotation is archived before the live file is replaced, and the lines before the
delta are the recorded prefix, because the digest has no collisions. -/

namespace Remudero.Ledger

open Remudero.Lib

namespace LedgerState

variable {D : Type} [DecidableEq D] {digest : List Row → D} {stepOf : Row → Option Text} {tsMs : Row → Option ℤ}

/-- The record is the digest of rows that are all archived. -/
def Recorded (digest : List Row → D) (dir : ArchiveDir) (c : CarriedPrefix D) : Prop :=
  ∃ core, c.sha256 = digest core ∧ ∀ row ∈ core, Archived dir row

/-- Performed in order, the effects keep every archived row, replace the live file only when its
rows are archived, and record only archived rows. -/
def SafeEffects (digest : List Row → D) (s : LedgerState D) : List (Effect D) → Prop
  | [] => True
  | .dir e :: es =>
      ArchiveDir.has s.dir e.target = false ∧ WellNamed (e.apply s.dir) ∧ SafeEffects digest (s.perform (.dir e)) es
  | .replaceLive rows :: es =>
      (∀ row ∈ s.liveRows, Archived s.dir row) ∧ SafeEffects digest (s.perform (.replaceLive rows)) es
  | .appendLive row :: es => SafeEffects digest (s.perform (.appendLive row)) es
  | .carry c :: es => Recorded digest s.dir c ∧ SafeEffects digest (s.perform (.carry c)) es
  | .retain r :: es => SafeEffects digest (s.perform (.retain r)) es

/-- The invariant: the rows of `appended` are kept, and so is what later rotations rely on. -/
structure Inv (digest : List Row → D) (appended : Row → Prop) (s : LedgerState D) : Prop where
  kept : ∀ row, appended row → row ∈ s.liveRows ∨ Archived s.dir row
  named : WellNamed s.dir
  recorded : ∀ c, s.carried = some c → Recorded digest s.dir c
  safe : SafeEffects digest s s.pending

variable {s t : LedgerState D}

omit [DecidableEq D] in
theorem Recorded.apply {dir : ArchiveDir} {c : CarriedPrefix D} {e : DirEffect} (h : Recorded digest dir c)
    (hfree : ArchiveDir.has dir e.target = false) : Recorded digest (e.apply dir) c := by
  obtain ⟨core, hsha, hcore⟩ := h
  exact ⟨core, hsha, fun row hrow => (hcore row hrow).apply hfree⟩

omit [DecidableEq D] in
/-- The effects do not read what is still pending. -/
theorem safeEffects_congr {es : List (Effect D)} (hlive : s.live = t.live) (hdir : s.dir = t.dir)
    (h : SafeEffects digest s es) : SafeEffects digest t es := by
  induction es generalizing s t with
  | nil => trivial
  | cons e es ih =>
      have hrows : s.liveRows = t.liveRows := by unfold liveRows; rw [hlive]
      cases e with
      | dir e =>
          obtain ⟨h1, h2, h3⟩ := h
          rw [hdir] at h1 h2
          refine ⟨h1, h2, ih (s := s.perform (.dir e)) (t := t.perform (.dir e)) hlive ?_ h3⟩
          simp only [perform, hdir]
      | replaceLive rows =>
          obtain ⟨h1, h2⟩ := h
          rw [hrows, hdir] at h1
          exact ⟨h1, ih (s := s.perform (.replaceLive rows)) (t := t.perform (.replaceLive rows)) rfl hdir h2⟩
      | appendLive row =>
          refine ih (s := s.perform (.appendLive row)) (t := t.perform (.appendLive row)) ?_ hdir h
          simp only [perform, hrows]
      | carry c =>
          obtain ⟨h1, h2⟩ := h
          rw [hdir] at h1
          exact ⟨h1, ih (s := s.perform (.carry c)) (t := t.perform (.carry c)) hlive hdir h2⟩
      | retain r => exact ih (s := s.perform (.retain r)) (t := t.perform (.retain r)) hlive hdir h

omit [DecidableEq D] in
theorem safeEffects_pending {es : List (Effect D)} (h : SafeEffects digest s es) :
    SafeEffects digest { s with pending := es } es :=
  safeEffects_congr (s := s) rfl rfl h

/-! ### The effects of a rotation -/

omit [DecidableEq D] in
theorem safeEffects_dir {es : List DirEffect} {fs : List (Effect D)} (hes : Safe s.dir es)
    (hfs : SafeEffects digest { s with dir := es.foldl DirEffect.apply s.dir } fs) :
    SafeEffects digest s (es.map .dir ++ fs) := by
  induction es generalizing s with
  | nil => exact hfs
  | cons e es ih => exact ⟨hes.1, hes.2.1, ih hes.2.2 hfs⟩

theorem splitAtBytes_append {n : ℕ} {rows before after : List Row}
    (h : splitAtBytes n rows = some (before, after)) : before ++ after = rows := by
  induction rows generalizing n before after with
  | nil =>
      cases n with
      | zero => cases h; rfl
      | succ n => cases h
  | cons row rows ih =>
      cases n with
      | zero => cases h; rfl
      | succ n =>
          unfold splitAtBytes at h
          split at h
          · obtain ⟨⟨before', after'⟩, hsplit, heq⟩ := Option.map_eq_some_iff.mp h
            cases heq
            rw [List.cons_append, ih hsplit]
          · cases h

/-- Every line of the snapshot is in the delta or archived already. -/
theorem archivedPrefixBytes_spec (hinj : Function.Injective digest) {snapshot : List Row} {row : Row}
    (hrec : ∀ c, s.carried = some c → Recorded digest s.dir c) (hrow : row ∈ snapshot) :
    row ∈ (archivedPrefixBytes digest s.carried snapshot).2 ∨ Archived s.dir row := by
  cases hc : s.carried with
  | none => exact .inl hrow
  | some c =>
      simp only [archivedPrefixBytes]
      cases hsplit : splitAtBytes c.bytes snapshot with
      | none => exact .inl hrow
      | some parts =>
          obtain ⟨before, after⟩ := parts
          dsimp only
          by_cases hdigest : digest before = c.sha256
          · rw [if_pos hdigest]
            rw [← splitAtBytes_append hsplit] at hrow
            rcases List.mem_append.mp hrow with hrow | hrow
            · right
              obtain ⟨core, hsha, hcore⟩ := hrec c hc
              have hsame : before = core := hinj (hdigest.trans hsha)
              exact hcore row (hsame ▸ hrow)
            · exact .inl hrow
          · rw [if_neg hdigest]
            exact .inl hrow

theorem rowsToRecarry_archived {dir : ArchiveDir} {lastFullMs : ℤ} {retained : List Text} {live : List Row}
    {row : Row} (h : row ∈ rowsToRecarry stepOf tsMs dir lastFullMs retained live) : Archived dir row := by
  unfold rowsToRecarry at h
  rw [List.mem_mergeSort, List.mem_flatMap] at h
  obtain ⟨a, ha, hrow⟩ := h
  exact ⟨a, (List.mem_filter.mp ha).1, (List.mem_filter.mp hrow).1⟩

omit [DecidableEq D] in
/-- What is retained comes from the archives or from the snapshot. -/
theorem retainedCore_mem {r : Rotation} {snapshot : List Row} {current : Bool} {row : Row}
    (h : row ∈ retainedCore stepOf tsMs s r snapshot current) : Archived s.dir row ∨ row ∈ snapshot := by
  unfold retainedCore at h
  have h' := (r.keep_sublist _).subset h
  rcases List.mem_append.mp h' with hre | hsnap
  · left
    split at hre
    · cases hre
    · exact rowsToRecarry_archived hre
  · exact .inr (List.mem_filter.mp hsnap).1

/-- The effects of a dated rotation are safe. -/
theorem rotationEffects_safe (hinj : Function.Injective digest) {appended : Row → Prop}
    (h : Inv digest appended s) {r : Rotation} (hd : Dated s.dir r.archive) :
    SafeEffects digest s (rotationEffects digest stepOf tsMs s r) := by
  unfold rotationEffects
  cases hlive : s.live with
  | none => trivial
  | some snapshot =>
      dsimp only
      split
      next =>
        cases s.retained with
        | none => trivial
        | some record =>
            show SafeEffects digest s (deferStaleRotation record _ r)
            unfold deferStaleRotation
            lift_lets
            intro key recent
            cases recent with
            | true => trivial
            | false => trivial
      next =>
        generalize hspec : (archivedPrefixBytes digest s.carried snapshot).2 = delta
        obtain ⟨hsafe, hdelta⟩ : Safe s.dir (archiveEffects s.dir r.archive delta) ∧ _ :=
          archiveEffects_safe h.named hd
        refine safeEffects_dir hsafe ?_
        -- once the delta is archived, so is every line of the snapshot
        have hall : ∀ row ∈ snapshot,
            Archived ((archiveEffects s.dir r.archive delta).foldl DirEffect.apply s.dir) row := by
          intro row hrow
          rcases archivedPrefixBytes_spec hinj h.recorded hrow with hin | harch
          · exact hdelta row (hspec ▸ hin)
          · exact harch.run hsafe
        refine ⟨?_, ⟨_, rfl, ?_⟩, trivial⟩
        · intro row hrow
          simp only [liveRows, hlive, Option.getD_some] at hrow
          exact hall row hrow
        · intro row hrow
          rcases retainedCore_mem hrow with harch | hsnap
          · exact harch.run hsafe
          · exact hall row hsnap

/-! ### Steps and runs -/

omit [DecidableEq D] in
/-- Performing a safe effect. -/
theorem inv_perform {appended : Row → Prop} {e : Effect D} {es : List (Effect D)} (h : Inv digest appended s)
    (hsafe : SafeEffects digest s (e :: es)) : Inv digest appended { s.perform e with pending := es } := by
  cases e with
  | dir e =>
      obtain ⟨hfree, hnamed, hrest⟩ := hsafe
      refine ⟨?_, hnamed, ?_, safeEffects_pending hrest⟩
      · intro row hrow
        exact (h.kept row hrow).imp_right fun ha => ha.apply hfree
      · intro c hc
        exact (h.recorded c hc).apply hfree
  | replaceLive rows =>
      obtain ⟨hlive, hrest⟩ := hsafe
      refine ⟨?_, h.named, h.recorded, safeEffects_pending hrest⟩
      intro row hrow
      right
      rcases h.kept row hrow with hin | ha
      · exact hlive row hin
      · exact ha
  | appendLive row' =>
      refine ⟨?_, h.named, h.recorded, safeEffects_pending hsafe⟩
      intro row hrow
      exact (h.kept row hrow).imp_left fun hin => List.mem_append_left _ hin
  | carry c =>
      obtain ⟨hrec, hrest⟩ := hsafe
      refine ⟨h.kept, h.named, ?_, safeEffects_pending hrest⟩
      intro c' hc'
      obtain rfl := Option.some.inj hc'
      exact hrec
  | retain r => exact ⟨h.kept, h.named, h.recorded, safeEffects_pending hsafe⟩

/-- Every dated event keeps the invariant. -/
theorem inv_step (hinj : Function.Injective digest) {es : List LedgerEvent} {e : LedgerEvent}
    (h : Inv digest (fun row => .append row ∈ es) s) (hstep : Step digest stepOf tsMs s e t)
    (hd : DatedRotation s e) : Inv digest (fun row => .append row ∈ es ++ [e]) t := by
  have hold : ∀ row, LedgerEvent.append row ∈ es ++ [e] → e ≠ .append row → LedgerEvent.append row ∈ es := by
    intro row hrow hne
    rcases List.mem_append.mp hrow with hrow | hrow
    · exact hrow
    · exact absurd (List.mem_singleton.mp hrow).symm hne
  have hmono : (∀ row, e ≠ .append row) → Inv digest (fun row => .append row ∈ es ++ [e]) s := by
    intro hne
    exact ⟨fun row hrow => h.kept row (hold row hrow (hne row)), h.named, h.recorded, h.safe⟩
  unfold Step next at hstep
  cases e with
  | append row =>
      simp only at hstep
      split at hstep
      · obtain rfl := Option.some.inj hstep
        refine ⟨?_, h.named, h.recorded, ?_⟩
        · intro row' hrow'
          by_cases heq : row' = row
          · left
            subst heq
            exact List.mem_append_right _ (List.mem_singleton.mpr rfl)
          · have := h.kept row' (hold row' hrow' (by simpa using fun hr => heq hr.symm))
            exact this.imp_left fun hin => List.mem_append_left _ hin
        · next hpend =>
            show SafeEffects digest _ s.pending
            rw [List.isEmpty_iff.mp hpend]
            trivial
      · cases hstep
  | rotate r =>
      simp only at hstep
      split at hstep
      · obtain rfl := Option.some.inj hstep
        have h' := hmono (by simp)
        exact ⟨h'.kept, h'.named, h'.recorded, safeEffects_pending (rotationEffects_safe hinj h hd)⟩
      · cases hstep
  | effect =>
      simp only at hstep
      split at hstep
      · cases hstep
      next e rest hpend =>
        obtain rfl := Option.some.inj hstep
        have h' := hmono (by simp)
        exact inv_perform h' (hpend ▸ h'.safe)
  | crash =>
      obtain rfl := Option.some.inj hstep
      have h' := hmono (by simp)
      exact ⟨h'.kept, h'.named, h'.recorded, trivial⟩

/-- **Delta archiving loses no history.**  In every run of appends and dated rotations, each of
which may crash after any of its effects, every appended row is a line of the live file or of some
archive, and the effect about to be performed hits no archive that is there. -/
theorem history_kept (hinj : Function.Injective digest) {es : List LedgerEvent}
    (hr : Run (Guarded (Step digest stepOf tsMs) DatedRotation) (empty : LedgerState D) es s) :
    (∀ row, LedgerEvent.append row ∈ es → row ∈ s.liveRows ∨ Archived s.dir row) ∧
      ∀ e rest, s.pending = .dir e :: rest → ArchiveDir.has s.dir e.target = false := by
  have h : Inv digest (fun row => LedgerEvent.append row ∈ es) s := by
    refine hr.invariant_trace (I := fun es s => Inv digest (fun row => LedgerEvent.append row ∈ es) s) ?_ ?_
    · intro es s e t h hs
      exact inv_step hinj h hs.1 hs.2
    · refine ⟨by simp, ⟨by simp [empty], by simp [empty], by simp [empty]⟩, ?_, trivial⟩
      intro c hc
      cases hc
  refine ⟨h.kept, fun e rest hpend => ?_⟩
  have hsafe := h.safe
  rw [hpend] at hsafe
  exact hsafe.1

/-- A rotation at `requestedMs` that retains nothing. -/
def plainRotation (requestedMs : ℤ) : Rotation where
  own := []
  overBackstop := false
  archive := ⟨requestedMs, requestedMs, false, fun _ => true⟩
  systemMs := requestedMs
  keep := fun _ => []
  keep_sublist := fun rows => List.nil_sublist rows
  notes := []
  deferralRow := []

/-- A row is archived and leaves the live file, and the rotation crashes before its
sidecar. -/
theorem archived_row_kept : ∃ s : LedgerState (List Row),
    Run (Guarded (Step id (fun _ => none) (fun _ => none)) DatedRotation) empty
        [.append ['a'], .rotate (plainRotation 0), .effect, .effect, .crash] s ∧
      s.liveRows = [] ∧ s.carried.isNone ∧ (['a'] ∈ s.liveRows ∨ Archived s.dir ['a']) := by
  have hd : Dated [] (plainRotation 0).archive := ⟨by decide, by decide, by simp [plainRotation]; decide, by simp⟩
  have hrun : Run (Guarded (Step (D := List Row) id (fun _ => none) (fun _ => none)) DatedRotation) empty
      [.append ['a'], .rotate (plainRotation 0), .effect, .effect, .crash] _ :=
    .cons ⟨rfl, trivial⟩ (.cons ⟨rfl, hd⟩ (.cons ⟨rfl, trivial⟩ (.cons ⟨rfl, trivial⟩ (.cons ⟨rfl, trivial⟩ .nil))))
  exact ⟨_, hrun, rfl, rfl, (history_kept Function.injective_id hrun).1 ['a'] (by simp)⟩

/-- Two rotations at one instant of the year 10000: the second archive replaces the first. -/
theorem archive_overwritten : ∃ s : LedgerState (List Row),
    Run (Step id (fun _ => none) (fun _ => none)) empty
        [.append ['a'], .rotate (plainRotation (lastStampMs + 1)), .effect, .effect, .effect, .effect,
          .append ['b'], .rotate (plainRotation (lastStampMs + 1)), .effect, .effect] s ∧
      ¬ (['a'] ∈ s.liveRows ∨ Archived s.dir ['a']) := by
  -- the name of the first archive is not read back, so the second rotation picks it again
  have hfirst : Run (Step id (fun _ => none) (fun _ => none)) (empty : LedgerState (List Row))
      [.append ['a'], .rotate (plainRotation (lastStampMs + 1)), .effect, .effect, .effect, .effect]
      ⟨some [], [⟨⟨lastStampMs + 1, false⟩, [['a']], (lastStampMs + 1 : ℤ)⟩], some ⟨0, []⟩,
        some ⟨[], some (lastStampMs + 1), none⟩, []⟩ := by
    refine .cons rfl (.cons rfl (.cons rfl (.cons rfl (.cons rfl (.cons ?_ .nil)))))
    show some (LedgerState.mk _ _ _ (some (RetainedSteps.mk (List.mergeSort [] _) _ _)) _) = some _
    rw [List.mergeSort_nil]
    rfl
  refine ⟨_, hfirst.append (.cons rfl (.cons rfl (.cons rfl (.cons rfl .nil)))), ?_⟩
  show ¬ (['a'] ∈ ([] : List Row) ∨ Archived [⟨⟨lastStampMs + 1, false⟩, [['b']], _⟩] ['a'])
  simp [Archived]

end LedgerState

end Remudero.Ledger
