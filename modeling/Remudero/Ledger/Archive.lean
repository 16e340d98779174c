import Remudero.Lib.Text

/-! # Rotation archives and their names

The archives of `lib/ledger.ts` beside the live ledger.  An archive is named by an instant in
milliseconds and its form: `ledger.<stamp>.ndjson` or, compressed, `ledger.<stamp>.ndjson.gz`.  The
stamp is `toISOString` with `:` and `.` replaced, so distinct instants have distinct names;
`rotationStampIso` reads it back only when the year has four digits (`rotationStamp`).

A rotation first renames archives whose name runs ahead of their own modification time
(`reconcileFrom`), then writes the new archive under an instant past the newest stamp it found
(`stampFor`), then renames it back behind its own modification time (`healIfAheadOfOwnMtime`).
Every rename looks for a free name; the write does not look, it replaces what is there.

The main result is `archiveEffects_safe`: while every stamp stays within four-digit years, no
write and no rename of a rotation hits a name that is taken, so no archived row is ever lost
(`Archived.run`); the archives then hold what they held and the delta (`dirRows_archiveEffects`). -/

namespace Remudero.Ledger

open Remudero.Lib

/-- A line of the ledger, without its newline. -/
abbrev Row := Text

structure ArchiveName where
  stampMs : ℤ
  gz : Bool
deriving DecidableEq, Repr

structure Archive where
  name : ArchiveName
  rows : List Row
  mtimeMs : ℚ

abbrev ArchiveDir := List Archive

/-- `0000-01-01T00:00:00.000Z`. -/
def firstStampMs : ℤ := -62167219200000

/-- `9999-12-31T23:59:59.999Z`. -/
def lastStampMs : ℤ := 253402300799999

/-- `Date.parse(rotationStampIso(name))`; a year of more than four digits does not match. -/
def rotationStamp (n : ArchiveName) : Option ℤ :=
  if firstStampMs ≤ n.stampMs ∧ n.stampMs ≤ lastStampMs then some n.stampMs else none

/-- `row` is a line of some archive. -/
def Archived (dir : ArchiveDir) (row : Row) : Prop := ∃ a ∈ dir, row ∈ a.rows

namespace ArchiveDir

def has (dir : ArchiveDir) (name : ArchiveName) : Bool := dir.any fun a => a.name = name

end ArchiveDir

/-- A durable change of the directory. -/
inductive DirEffect where
  | rename (source target : ArchiveName)
  | write (name : ArchiveName) (rows : List Row) (mtimeMs : ℚ)

namespace DirEffect

/-- Both a rename and an atomic write replace what has the target name. -/
def apply (dir : ArchiveDir) : DirEffect → ArchiveDir
  | .rename source target =>
      (dir.filter fun a => a.name = source ∨ a.name ≠ target).map fun a =>
        if a.name = source then { a with name := target } else a
  | .write name rows mtimeMs => dir.filter (fun a => a.name ≠ name) ++ [⟨name, rows, mtimeMs⟩]

def target : DirEffect → ArchiveName
  | .rename _ target => target
  | .write name _ _ => name

end DirEffect

/-! ### Naming -/

/-- Nudge `ms` forward to a name that is not taken, for at most `fuel` steps. -/
def freeStamp (dir : ArchiveDir) (gz : Bool) : ℕ → ℤ → ℤ
  | 0, ms => ms
  | fuel + 1, ms => if ArchiveDir.has dir ⟨ms, gz⟩ then freeStamp dir gz fuel (ms + 1) else ms

/-- The name the archive `current` has after it was to be renamed to `ms`; `none` when the rename
itself fails. -/
def renameArchiveTo (dir : ArchiveDir) (current : ArchiveName) (ms : ℤ) (renameOk : Bool) : Option ArchiveName :=
  if (⟨ms, current.gz⟩ : ArchiveName) = current then some current
  else if renameOk then some ⟨freeStamp dir current.gz (dir.length + 1) ms, current.gz⟩
  else none

/-- The rename itself; an archive that has its safe name already is left alone. -/
def renameEffects (current target : ArchiveName) : List DirEffect :=
  if target = current then [] else [.rename current target]

/-- `maxSafeMs` after one more archive; `none` within is `NaN`, which no comparison replaces. -/
def newest (best : Option (Option ℤ)) (safe : Option ℤ) : Option (Option ℤ) :=
  match best with
  | none => some safe
  | some b =>
      match b, safe with
      | some b, some s => if b < s then some (some s) else some (some b)
      | b, _ => some b

/-- `reconcileArchiveStamps` on the archives still to look at: its renames and the newest stamp. -/
def reconcileFrom (renameOk : ArchiveName → Bool) :
    List Archive → ArchiveDir → Option (Option ℤ) → List DirEffect × Option (Option ℤ)
  | [], _, best => ([], best)
  | a :: rest, dir, best =>
      match rotationStamp a.name with
      | none => reconcileFrom renameOk rest dir best
      | some nameMs =>
          if a.mtimeMs < nameMs then
            match renameArchiveTo dir a.name ⌊a.mtimeMs⌋ (renameOk a.name) with
            | none => reconcileFrom renameOk rest dir (newest best (some nameMs))
            | some target =>
                let renames := renameEffects a.name target
                let (effects, best') := reconcileFrom renameOk rest
                  (renames.foldl DirEffect.apply dir) (newest best (rotationStamp target))
                (renames ++ effects, best')
          else reconcileFrom renameOk rest dir (newest best (some nameMs))

/-- An instant past the newest stamp. -/
def stampFor (last : Option (Option ℤ)) (ms : ℤ) : ℤ :=
  match last with
  | some (some l) => if ms ≤ l then l + 1 else ms
  | _ => ms

/-- The rename of an archive just written, when its name is ahead of its own modification time. -/
def healIfAheadOfOwnMtime (dir : ArchiveDir) (name : ArchiveName) (mtimeMs : ℚ) (last : Option (Option ℤ))
    (renameOk : Bool) : List DirEffect :=
  match rotationStamp name with
  | none => []
  | some nameMs =>
      if (nameMs : ℚ) ≤ mtimeMs then []
      else match renameArchiveTo dir name (stampFor last ⌊mtimeMs⌋) renameOk with
        | none => []
        | some target => renameEffects name target

/-- What a rotation asks of its surroundings when it names an archive. -/
structure ArchiveRequest where
  /-- the instant of `opts.now` or of the system clock -/
  requestedMs : ℤ
  /-- the modification time the new archive gets -/
  mtimeMs : ℚ
  gzipOk : Bool
  renameOk : ArchiveName → Bool

/-- The changes of the directory, in order: the renames, then the write of a non-empty delta and
the rename that heals it. -/
def archiveEffects (dir : ArchiveDir) (req : ArchiveRequest) (delta : List Row) : List DirEffect :=
  let (renames, last) := reconcileFrom req.renameOk dir dir none
  if delta.isEmpty then renames
  else
    let name : ArchiveName := ⟨stampFor last req.requestedMs, req.gzipOk⟩
    let written := DirEffect.apply (renames.foldl DirEffect.apply dir) (.write name delta req.mtimeMs)
    renames ++ .write name delta req.mtimeMs ::
      healIfAheadOfOwnMtime written name req.mtimeMs last (req.renameOk name)

/-! ### Free names -/

variable {dir : ArchiveDir} {e : DirEffect} {row : Row}

theorem has_iff {name : ArchiveName} : ArchiveDir.has dir name = true ↔ name ∈ dir.map (·.name) := by
  simp [ArchiveDir.has]

theorem freeStamp_bounds {gz : Bool} {fuel : ℕ} {ms : ℤ} :
    ms ≤ freeStamp dir gz fuel ms ∧ freeStamp dir gz fuel ms ≤ ms + fuel := by
  induction fuel generalizing ms with
  | zero => simp [freeStamp]
  | succ fuel ih =>
      unfold freeStamp
      split
      · have := @ih (ms + 1)
        push_cast
        omega
      · push_cast
        omega

theorem taken_of_freeStamp {gz : Bool} {fuel : ℕ} {ms : ℤ}
    (h : ArchiveDir.has dir ⟨freeStamp dir gz fuel ms, gz⟩ = true) :
    ∀ k : ℕ, k < fuel → ArchiveDir.has dir ⟨ms + k, gz⟩ = true := by
  induction fuel generalizing ms with
  | zero => intro k hk; omega
  | succ fuel ih =>
      unfold freeStamp at h
      split at h
      next hms =>
        intro k hk
        cases k with
        | zero => simpa using hms
        | succ k =>
            have := ih h k (by omega)
            push_cast
            rwa [show ms + ((k : ℤ) + 1) = ms + 1 + k by ring]
      next hms => exact absurd h hms

/-- There are more candidates than archives, so the nudging ends at a free name. -/
theorem freeStamp_free {gz : Bool} {ms : ℤ} :
    ArchiveDir.has dir ⟨freeStamp dir gz (dir.length + 1) ms, gz⟩ = false := by
  by_contra h
  have hall := taken_of_freeStamp (by simpa using h)
  have hsub : (List.range (dir.length + 1)).map (fun k : ℕ => (⟨ms + k, gz⟩ : ArchiveName)) ⊆
      dir.map (·.name) := by
    intro n hn
    obtain ⟨k, hk, rfl⟩ := List.mem_map.mp hn
    exact has_iff.mp (hall k (List.mem_range.mp hk))
  have hnodup : ((List.range (dir.length + 1)).map (fun k : ℕ => (⟨ms + k, gz⟩ : ArchiveName))).Nodup := by
    refine List.Nodup.map ?_ List.nodup_range
    intro i j hij
    have := congrArg ArchiveName.stampMs hij
    simp only at this
    omega
  have hlen := (hnodup.subperm hsub).length_le
  simp at hlen

/-! ### One change of the directory -/

/-- Names are distinct and, with the modification times, readable as stamps. -/
structure WellNamed (dir : ArchiveDir) : Prop where
  nodup : (dir.map (·.name)).Nodup
  stamps : ∀ a ∈ dir, firstStampMs ≤ a.name.stampMs ∧ a.name.stampMs ≤ lastStampMs
  mtimes : ∀ a ∈ dir, firstStampMs ≤ ⌊a.mtimeMs⌋

theorem name_ne_of_free {name : ArchiveName} {a : Archive} (h : ArchiveDir.has dir name = false) (ha : a ∈ dir) :
    a.name ≠ name := by
  rintro rfl
  rw [has_iff.mpr (List.mem_map.mpr ⟨a, ha, rfl⟩)] at h
  cases h

theorem apply_rename {source target : ArchiveName} (h : ArchiveDir.has dir target = false) :
    DirEffect.apply dir (.rename source target) =
      dir.map fun a => if a.name = source then { a with name := target } else a := by
  simp only [DirEffect.apply]
  rw [List.filter_eq_self.mpr]
  intro a ha
  simp [name_ne_of_free h ha]

theorem apply_write {name : ArchiveName} {rows : List Row} {mtimeMs : ℚ} (h : ArchiveDir.has dir name = false) :
    DirEffect.apply dir (.write name rows mtimeMs) = dir ++ [⟨name, rows, mtimeMs⟩] := by
  simp only [DirEffect.apply]
  rw [List.filter_eq_self.mpr]
  intro a ha
  simp [name_ne_of_free h ha]

/-- A change whose target is free keeps every archived row. -/
theorem Archived.apply (h : Archived dir row) (hfree : ArchiveDir.has dir e.target = false) :
    Archived (e.apply dir) row := by
  obtain ⟨a, ha, hrow⟩ := h
  cases e with
  | rename source target =>
      have hfree' : ArchiveDir.has dir target = false := hfree
      rw [apply_rename hfree']
      refine ⟨_, List.mem_map.mpr ⟨a, ha, rfl⟩, ?_⟩
      split
      · exact hrow
      · exact hrow
  | write name rows mtimeMs =>
      have hfree' : ArchiveDir.has dir name = false := hfree
      rw [apply_write hfree']
      exact ⟨a, List.mem_append_left _ ha, hrow⟩

theorem archived_write {name : ArchiveName} {rows : List Row} {mtimeMs : ℚ} (h : row ∈ rows) :
    Archived (DirEffect.apply dir (.write name rows mtimeMs)) row :=
  ⟨_, List.mem_append_right _ (List.mem_singleton.mpr rfl), h⟩

theorem WellNamed.rename (h : WellNamed dir) {source target : ArchiveName}
    (hfree : ArchiveDir.has dir target = false) (hlo : firstStampMs ≤ target.stampMs)
    (hhi : target.stampMs ≤ lastStampMs) : WellNamed (DirEffect.apply dir (.rename source target)) := by
  rw [apply_rename hfree]
  have hnew : target ∉ dir.map (·.name) := by
    intro hmem
    rw [has_iff.mpr hmem] at hfree
    cases hfree
  constructor
  · rw [List.map_map]
    have hcomp : ((·.name) ∘ fun a : Archive => if a.name = source then { a with name := target } else a) =
        (fun n => if n = source then target else n) ∘ (·.name) := by
      funext a
      simp only [Function.comp_apply]
      split <;> rfl
    rw [hcomp, ← List.map_map]
    refine List.Nodup.map_on ?_ h.nodup
    intro m hm n hn hmn
    by_cases h1 : m = source <;> by_cases h2 : n = source
    · rw [h1, h2]
    · rw [if_pos h1, if_neg h2] at hmn
      exact absurd (hmn ▸ hn) hnew
    · rw [if_neg h1, if_pos h2] at hmn
      exact absurd (hmn ▸ hm) hnew
    · rwa [if_neg h1, if_neg h2] at hmn
  · intro b hb
    obtain ⟨a, ha, rfl⟩ := List.mem_map.mp hb
    split
    · exact ⟨hlo, hhi⟩
    · exact h.stamps a ha
  · intro b hb
    obtain ⟨a, ha, rfl⟩ := List.mem_map.mp hb
    split
    · exact h.mtimes a ha
    · exact h.mtimes a ha

theorem WellNamed.write (h : WellNamed dir) {name : ArchiveName} {rows : List Row} {mtimeMs : ℚ}
    (hfree : ArchiveDir.has dir name = false) (hlo : firstStampMs ≤ name.stampMs)
    (hhi : name.stampMs ≤ lastStampMs) (hmtime : firstStampMs ≤ ⌊mtimeMs⌋) :
    WellNamed (DirEffect.apply dir (.write name rows mtimeMs)) := by
  rw [apply_write hfree]
  have hnew : name ∉ dir.map (·.name) := by
    intro hmem
    rw [has_iff.mpr hmem] at hfree
    cases hfree
  constructor
  · rw [List.map_append]
    refine List.Nodup.append h.nodup (List.nodup_singleton _) ?_
    intro n hn hn'
    have hname : n = name := by simpa using hn'
    exact hnew (hname ▸ hn)
  · intro a ha
    rcases List.mem_append.mp ha with ha | ha
    · exact h.stamps a ha
    · rw [List.mem_singleton.mp ha]
      exact ⟨hlo, hhi⟩
  · intro a ha
    rcases List.mem_append.mp ha with ha | ha
    · exact h.mtimes a ha
    · rw [List.mem_singleton.mp ha]
      exact hmtime

/-! ### Sequences of changes -/

/-- Applied in order, no change hits a taken name and every directory on the way is well named. -/
def Safe (dir : ArchiveDir) : List DirEffect → Prop
  | [] => True
  | e :: es => ArchiveDir.has dir e.target = false ∧ WellNamed (e.apply dir) ∧ Safe (e.apply dir) es

theorem safe_append {es fs : List DirEffect} (h₁ : Safe dir es) (h₂ : Safe (es.foldl DirEffect.apply dir) fs) :
    Safe dir (es ++ fs) := by
  induction es generalizing dir with
  | nil => exact h₂
  | cons e es ih => exact ⟨h₁.1, h₁.2.1, ih h₁.2.2 h₂⟩

theorem Archived.run {es : List DirEffect} (h : Archived dir row) (hsafe : Safe dir es) :
    Archived (es.foldl DirEffect.apply dir) row := by
  induction es generalizing dir with
  | nil => exact h
  | cons e es ih => exact ih (h.apply hsafe.1) hsafe.2.2

theorem length_rename {source target : ArchiveName} (h : ArchiveDir.has dir target = false) :
    (DirEffect.apply dir (.rename source target)).length = dir.length := by
  rw [apply_rename h, List.length_map]

/-- A rename goes to the nearest free stamp from `ms` on. -/
theorem renameArchiveTo_spec {current target : ArchiveName} {ms : ℤ} {renameOk : Bool}
    (h : renameArchiveTo dir current ms renameOk = some target) (hne : target ≠ current) :
    ArchiveDir.has dir target = false ∧ ms ≤ target.stampMs ∧ target.stampMs ≤ ms + (dir.length + 1 : ℕ) := by
  unfold renameArchiveTo at h
  split at h
  · exact absurd (Option.some.inj h).symm hne
  · split at h
    · obtain rfl := Option.some.inj h
      exact ⟨freeStamp_free, freeStamp_bounds⟩
    · cases h

/-! ### Reconciling -/

theorem rotationStamp_of_bounds {n : ArchiveName} (hlo : firstStampMs ≤ n.stampMs) (hhi : n.stampMs ≤ lastStampMs) :
    rotationStamp n = some n.stampMs := if_pos ⟨hlo, hhi⟩

/-- The newest stamp covers the one before and the new one. -/
theorem newest_some {best : Option (Option ℤ)} (hbest : best = none ∨ ∃ l, best = some (some l)) (s : ℤ) :
    ∃ l, newest best (some s) = some (some l) ∧ s ≤ l ∧ (∀ l', best = some (some l') → l' ≤ l) ∧
      (l = s ∨ best = some (some l)) := by
  rcases hbest with rfl | ⟨b, rfl⟩
  · exact ⟨s, rfl, le_refl _, by simp, .inl rfl⟩
  · by_cases h : b < s
    · exact ⟨s, by simp [newest, h], le_refl _, by simp; omega, .inl rfl⟩
    · exact ⟨b, by simp [newest, h], by omega, by simp, .inr rfl⟩

/-- Part-way through the reconciliation: the archives of `rest` are still to be looked at, every
other one is covered by the newest stamp. -/
structure Reconciling (B : ℤ) (rest : List Archive) (dir : ArchiveDir) (best : Option (Option ℤ)) : Prop where
  named : WellNamed dir
  bound : ∀ a ∈ dir, a.name.stampMs ≤ B + dir.length
  rest_bound : ∀ a ∈ rest, firstStampMs ≤ a.name.stampMs ∧ a.name.stampMs ≤ B ∧ firstStampMs ≤ ⌊a.mtimeMs⌋
  rest_nodup : (rest.map (·.name)).Nodup
  present : ∀ a ∈ rest, a.name ∈ dir.map (·.name)
  covered : ∀ a ∈ dir, a.name ∈ rest.map (·.name) ∨ ∃ l, best = some (some l) ∧ a.name.stampMs ≤ l
  best_bound : best = none ∨ ∃ l, best = some (some l) ∧ l ≤ B + dir.length

theorem Reconciling.best_some {B : ℤ} {rest : List Archive} {best : Option (Option ℤ)}
    (h : Reconciling B rest dir best) : best = none ∨ ∃ l, best = some (some l) :=
  h.best_bound.imp_right fun ⟨l, hl, _⟩ => ⟨l, hl⟩

/-- The archive looked at keeps its name. -/
theorem Reconciling.keep {B : ℤ} {a : Archive} {rest : List Archive} {best : Option (Option ℤ)}
    (h : Reconciling B (a :: rest) dir best) :
    Reconciling B rest dir (newest best (some a.name.stampMs)) := by
  obtain ⟨l, hl, hs, hmono, hwhich⟩ := newest_some h.best_some a.name.stampMs
  have ha := h.rest_bound a List.mem_cons_self
  rw [hl]
  refine ⟨h.named, h.bound, fun b hb => h.rest_bound b (List.mem_cons_of_mem _ hb),
    (List.nodup_cons.mp h.rest_nodup).2, fun b hb => h.present b (List.mem_cons_of_mem _ hb), ?_, ?_⟩
  · intro b hb
    rcases h.covered b hb with hin | ⟨l', hl', hle⟩
    · rcases List.mem_cons.mp hin with heq | hin
      · right
        exact ⟨l, rfl, by rw [heq]; exact hs⟩
      · exact .inl hin
    · right
      have := hmono l' hl'
      exact ⟨l, rfl, by omega⟩
  · right
    refine ⟨l, rfl, ?_⟩
    rcases hwhich with rfl | hb
    · omega
    · rcases h.best_bound with hn | ⟨l', hl', hle⟩
      · rw [hn] at hb; cases hb
      · rw [hl'] at hb
        cases hb
        exact hle

/-- The archive looked at takes a free name. -/
theorem Reconciling.rename {B : ℤ} {a : Archive} {rest : List Archive} {best : Option (Option ℤ)}
    (h : Reconciling B (a :: rest) dir best) {target : ArchiveName} (hfree : ArchiveDir.has dir target = false)
    (hlo : firstStampMs ≤ target.stampMs) (hhi : target.stampMs ≤ B + dir.length)
    (hlast : B + dir.length ≤ lastStampMs) :
    Reconciling B rest (DirEffect.apply dir (.rename a.name target)) (newest best (some target.stampMs)) := by
  obtain ⟨l, hl, hs, hmono, hwhich⟩ := newest_some h.best_some target.stampMs
  have hnotin := (List.nodup_cons.mp h.rest_nodup).1
  rw [hl]
  refine ⟨h.named.rename hfree hlo (by omega), ?_, fun b hb => h.rest_bound b (List.mem_cons_of_mem _ hb),
    (List.nodup_cons.mp h.rest_nodup).2, ?_, ?_, ?_⟩
  · rw [length_rename hfree, apply_rename hfree]
    intro b hb
    obtain ⟨c, hc, rfl⟩ := List.mem_map.mp hb
    split
    · exact hhi
    · exact h.bound c hc
  · intro b hb
    obtain ⟨c, hc, hcb⟩ := List.mem_map.mp (h.present b (List.mem_cons_of_mem _ hb))
    rw [apply_rename hfree]
    refine List.mem_map.mpr ⟨c, List.mem_map.mpr ⟨c, hc, ?_⟩, hcb⟩
    rw [if_neg]
    intro hca
    exact hnotin (List.mem_map.mpr ⟨b, hb, hcb.symm.trans hca⟩)
  · rw [apply_rename hfree]
    intro b hb
    obtain ⟨c, hc, rfl⟩ := List.mem_map.mp hb
    split
    · exact .inr ⟨l, rfl, hs⟩
    next hca =>
      rcases h.covered c hc with hin | ⟨l', hl', hle⟩
      · rcases List.mem_cons.mp hin with heq | hin
        · exact absurd heq hca
        · exact .inl hin
      · right
        have := hmono l' hl'
        exact ⟨l, rfl, by omega⟩
  · right
    rw [length_rename hfree]
    refine ⟨l, rfl, ?_⟩
    rcases hwhich with rfl | hb
    · exact hhi
    · rcases h.best_bound with hn | ⟨l', hl', hle⟩
      · rw [hn] at hb; cases hb
      · rw [hl'] at hb
        cases hb
        exact hle

theorem floor_lt_of_lt {x : ℚ} {n : ℤ} (h : x < n) : ⌊x⌋ < n := Int.floor_lt.mpr h

/-- The renames of a reconciliation hit no taken name and leave the newest stamp above all. -/
theorem Reconciling.safe {B : ℤ} {rest : List Archive} {best : Option (Option ℤ)}
    (h : Reconciling B rest dir best) (renameOk : ArchiveName → Bool) (hlast : B + dir.length ≤ lastStampMs) :
    Safe dir (reconcileFrom renameOk rest dir best).1 ∧
      ((reconcileFrom renameOk rest dir best).1.foldl DirEffect.apply dir).length = dir.length ∧
      Reconciling B [] ((reconcileFrom renameOk rest dir best).1.foldl DirEffect.apply dir)
        (reconcileFrom renameOk rest dir best).2 := by
  induction rest generalizing dir best with
  | nil => exact ⟨trivial, rfl, h⟩
  | cons a rest ih =>
      have ha := h.rest_bound a List.mem_cons_self
      have hstamp : rotationStamp a.name = some a.name.stampMs := rotationStamp_of_bounds ha.1 (by omega)
      unfold reconcileFrom
      rw [hstamp]
      dsimp only
      split
      next hlt =>
        have hfloor := floor_lt_of_lt hlt
        cases hren : renameArchiveTo dir a.name ⌊a.mtimeMs⌋ (renameOk a.name) with
        | none => exact ih h.keep hlast
        | some target =>
            -- the floor of the modification time is below the name, so the archive moves
            have hne : target ≠ a.name := by
              rintro rfl
              unfold renameArchiveTo at hren
              split at hren
              next heq =>
                have := congrArg ArchiveName.stampMs heq
                simp only at this
                omega
              next =>
                split at hren
                · have hself := Option.some.inj hren
                  have hin := has_iff.mpr (h.present a List.mem_cons_self)
                  rw [← hself, freeStamp_free] at hin
                  cases hin
                · cases hren
            obtain ⟨hfree, hge, hle⟩ := renameArchiveTo_spec hren hne
            push_cast at hle
            have hhi : target.stampMs ≤ B + dir.length := by omega
            have hlo : firstStampMs ≤ target.stampMs := by omega
            have hnext := h.rename hfree hlo hhi hlast
            have hlen : (DirEffect.apply dir (.rename a.name target)).length = dir.length := length_rename hfree
            simp only [renameEffects, if_neg hne, List.foldl_cons, List.foldl_nil, List.singleton_append]
            rw [rotationStamp_of_bounds hlo (by omega)]
            have hrec := ih hnext (by rw [hlen]; exact hlast)
            refine ⟨⟨hfree, hnext.named, hrec.1⟩, ?_, hrec.2.2⟩
            rw [hrec.2.1, hlen]
      next => exact ih h.keep hlast

/-! ### A rotation's changes -/

/-- The directory and the request stay clear of the first and of the last readable instant: each of
the renames and the write may be nudged by one step for every archive. -/
structure Dated (dir : ArchiveDir) (req : ArchiveRequest) : Prop where
  requested_first : firstStampMs ≤ req.requestedMs
  requested_last : req.requestedMs + (2 * dir.length + 3 : ℕ) ≤ lastStampMs
  mtime_first : firstStampMs ≤ ⌊req.mtimeMs⌋
  stamps_last : ∀ a ∈ dir, a.name.stampMs + (2 * dir.length + 3 : ℕ) ≤ lastStampMs

theorem stampFor_cases (last : Option (Option ℤ)) (ms : ℤ) :
    stampFor last ms = ms ∨ ∃ l, last = some (some l) ∧ ms ≤ l ∧ stampFor last ms = l + 1 := by
  unfold stampFor
  split
  next l =>
    split
    next h => exact .inr ⟨l, rfl, h, rfl⟩
    next => exact .inl rfl
  next => exact .inl rfl

theorem lt_stampFor {l ms : ℤ} : l < stampFor (some (some l)) ms := by
  simp only [stampFor]
  split <;> omega

/-- The stamp above every archive, in numbers. -/
theorem exists_stamp_bound (dir : ArchiveDir) (B : ℤ) :
    ∃ C, B ≤ C ∧ (∀ a ∈ dir, a.name.stampMs ≤ C) ∧ (C = B ∨ ∃ a ∈ dir, C = a.name.stampMs) := by
  induction dir with
  | nil => exact ⟨B, le_refl _, by simp, .inl rfl⟩
  | cons a dir ih =>
      obtain ⟨C, hB, hall, hwhich⟩ := ih
      by_cases h : C ≤ a.name.stampMs
      · refine ⟨a.name.stampMs, by omega, ?_, .inr ⟨a, List.mem_cons_self, rfl⟩⟩
        intro b hb
        rcases List.mem_cons.mp hb with rfl | hb
        · exact le_refl _
        · have := hall b hb
          omega
      · refine ⟨C, hB, ?_, ?_⟩
        · intro b hb
          rcases List.mem_cons.mp hb with rfl | hb
          · omega
          · exact hall b hb
        · exact hwhich.imp_right fun ⟨b, hb, hC⟩ => ⟨b, List.mem_cons_of_mem _ hb, hC⟩

/-- The write goes past every stamp, and the healing rename to a free one. -/
theorem Reconciling.write_safe {B : ℤ} {last : Option (Option ℤ)} {req : ArchiveRequest}
    (h : Reconciling B [] dir last) (delta : List Row) (hreq : req.requestedMs ≤ B) (hfirst : firstStampMs ≤ req.requestedMs)
    (hmtime : firstStampMs ≤ ⌊req.mtimeMs⌋) (hlast : B + 2 * dir.length + 3 ≤ lastStampMs) :
    Safe dir (.write ⟨stampFor last req.requestedMs, req.gzipOk⟩ delta req.mtimeMs ::
      healIfAheadOfOwnMtime (DirEffect.apply dir
          (.write ⟨stampFor last req.requestedMs, req.gzipOk⟩ delta req.mtimeMs))
        ⟨stampFor last req.requestedMs, req.gzipOk⟩ req.mtimeMs last
        (req.renameOk ⟨stampFor last req.requestedMs, req.gzipOk⟩)) := by
  generalize hname : (⟨stampFor last req.requestedMs, req.gzipOk⟩ : ArchiveName) = name
  have hstamp : name.stampMs = stampFor last req.requestedMs := by rw [← hname]
  have hbest : ∀ l, last = some (some l) → l ≤ B + dir.length := by
    intro l hl
    rcases h.best_bound with hn | ⟨l', hl', hle⟩
    · rw [hn] at hl; cases hl
    · rw [hl'] at hl
      cases hl
      exact hle
  have hlo : firstStampMs ≤ name.stampMs := by
    rcases stampFor_cases last req.requestedMs with hs | ⟨l, -, hle, hs⟩ <;> omega
  have hhi : name.stampMs ≤ B + dir.length + 1 := by
    rcases stampFor_cases last req.requestedMs with hs | ⟨l, hl, -, hs⟩
    · omega
    · have := hbest l hl
      omega
  have hfree : ArchiveDir.has dir name = false := by
    by_contra hin
    obtain ⟨a, ha, haname⟩ := List.mem_map.mp (has_iff.mp (by simpa using hin))
    rcases h.covered a ha with hnil | ⟨l, hl, hle⟩
    · cases hnil
    · have hlt : l < stampFor last req.requestedMs := by rw [hl]; exact lt_stampFor
      have haname' : a.name.stampMs = name.stampMs := congrArg ArchiveName.stampMs haname
      omega
  have hwritten : WellNamed (DirEffect.apply dir (.write name delta req.mtimeMs)) :=
    h.named.write hfree hlo (by omega) hmtime
  refine ⟨hfree, hwritten, ?_⟩
  unfold healIfAheadOfOwnMtime
  rw [rotationStamp_of_bounds hlo (by omega)]
  dsimp only
  split
  · trivial
  next hahead =>
    have hfloor := floor_lt_of_lt (not_le.mp hahead)
    cases hren : renameArchiveTo (DirEffect.apply dir (.write name delta req.mtimeMs)) name
        (stampFor last ⌊req.mtimeMs⌋) (req.renameOk name) with
    | none => trivial
    | some target =>
        dsimp only
        unfold renameEffects
        split
        · trivial
        next hne =>
          obtain ⟨hfree', hge, hle⟩ := renameArchiveTo_spec hren hne
          have hlen : (DirEffect.apply dir (.write name delta req.mtimeMs)).length = dir.length + 1 := by
            rw [apply_write hfree, List.length_append]
            rfl
          rw [hlen] at hle
          push_cast at hle
          have hbounds : firstStampMs ≤ target.stampMs ∧ target.stampMs ≤ lastStampMs := by
            rcases stampFor_cases last ⌊req.mtimeMs⌋ with hs | ⟨l, hl, hml, hs⟩
            · omega
            · have := hbest l hl
              omega
          exact ⟨hfree', hwritten.rename hfree' hbounds.1 hbounds.2, trivial⟩

/-- The changes of a rotation hit no taken name, and the delta ends up archived. -/
theorem archiveEffects_safe {req : ArchiveRequest} {delta : List Row} (h : WellNamed dir) (hd : Dated dir req) :
    Safe dir (archiveEffects dir req delta) ∧
      ∀ row ∈ delta, Archived ((archiveEffects dir req delta).foldl DirEffect.apply dir) row := by
  obtain ⟨B, hreq, hB, hwhich⟩ := exists_stamp_bound dir req.requestedMs
  have hBlast : B + (2 * dir.length + 3 : ℕ) ≤ lastStampMs := by
    rcases hwhich with rfl | ⟨a, ha, rfl⟩
    · exact hd.requested_last
    · exact hd.stamps_last a ha
  push_cast at hBlast
  have hstart : Reconciling B dir dir none :=
    { named := h
      bound := fun a ha => by have := hB a ha; omega
      rest_bound := fun a ha => ⟨(h.stamps a ha).1, hB a ha, h.mtimes a ha⟩
      rest_nodup := h.nodup
      present := fun a ha => List.mem_map.mpr ⟨a, ha, rfl⟩
      covered := fun a ha => .inl (List.mem_map.mpr ⟨a, ha, rfl⟩)
      best_bound := .inl rfl }
  obtain ⟨hsafe, hlen, hrec⟩ := hstart.safe req.renameOk (by omega)
  unfold archiveEffects
  generalize reconcileFrom req.renameOk dir dir none = renamed at hsafe hlen hrec ⊢
  obtain ⟨renames, last⟩ := renamed
  dsimp only at hsafe hlen hrec ⊢
  split
  next hempty =>
    refine ⟨hsafe, fun row hrow => ?_⟩
    rw [List.isEmpty_iff.mp hempty] at hrow
    cases hrow
  next =>
    have hwrite := hrec.write_safe delta hreq hd.requested_first hd.mtime_first
      (by rw [hlen]; omega)
    refine ⟨safe_append hsafe hwrite, fun row hrow => ?_⟩
    rw [List.foldl_append, List.foldl_cons]
    exact Archived.run (archived_write hrow) hwrite.2.2

/-! ### The rows of a directory -/

/-- The rows of all archives. -/
def dirRows (dir : ArchiveDir) : List Row := dir.flatMap (·.rows)

theorem archived_iff : Archived dir row ↔ row ∈ dirRows dir := by
  unfold Archived dirRows
  rw [List.mem_flatMap]

/-- The rows that a change adds. -/
def DirEffect.written : DirEffect → List Row
  | .rename _ _ => []
  | .write _ rows _ => rows

theorem dirRows_apply (h : ArchiveDir.has dir e.target = false) : dirRows (e.apply dir) = dirRows dir ++ e.written := by
  cases e with
  | rename source target =>
      have hfree : ArchiveDir.has dir target = false := h
      rw [apply_rename hfree]
      simp only [dirRows, DirEffect.written, List.append_nil, List.flatMap_map]
      congr 1
      funext a
      split <;> rfl
  | write name rows mtimeMs =>
      have hfree : ArchiveDir.has dir name = false := h
      rw [apply_write hfree]
      simp [dirRows, DirEffect.written]

theorem dirRows_run {es : List DirEffect} (h : Safe dir es) :
    dirRows (es.foldl DirEffect.apply dir) = dirRows dir ++ es.flatMap DirEffect.written := by
  induction es generalizing dir with
  | nil => simp
  | cons e es ih =>
      rw [List.foldl_cons, ih h.2.2, dirRows_apply h.1, List.flatMap_cons, List.append_assoc]

theorem Safe.wellNamed {es : List DirEffect} (h : WellNamed dir) (hs : Safe dir es) :
    WellNamed (es.foldl DirEffect.apply dir) := by
  induction es generalizing dir with
  | nil => exact h
  | cons e es ih => exact ih hs.2.1 hs.2.2

theorem renameEffects_written (current target : ArchiveName) :
    (renameEffects current target).flatMap DirEffect.written = [] := by
  unfold renameEffects
  split <;> rfl

theorem reconcileFrom_written {renameOk : ArchiveName → Bool} {rest : List Archive} {best : Option (Option ℤ)} :
    (reconcileFrom renameOk rest dir best).1.flatMap DirEffect.written = [] := by
  induction rest generalizing dir best with
  | nil => rfl
  | cons a rest ih =>
      unfold reconcileFrom
      split
      · exact ih
      · split
        · split
          · exact ih
          · dsimp only
            rw [List.flatMap_append, renameEffects_written, ih, List.append_nil]
        · exact ih

theorem healIfAheadOfOwnMtime_written {name : ArchiveName} {mtimeMs : ℚ} {last : Option (Option ℤ)} {renameOk : Bool} :
    (healIfAheadOfOwnMtime dir name mtimeMs last renameOk).flatMap DirEffect.written = [] := by
  unfold healIfAheadOfOwnMtime
  split
  · rfl
  · split
    · rfl
    · split
      · rfl
      · exact renameEffects_written _ _

/-- A rotation adds its delta to the archived rows and changes nothing else of them. -/
theorem dirRows_archiveEffects {req : ArchiveRequest} {delta : List Row} (h : WellNamed dir) (hd : Dated dir req) :
    dirRows ((archiveEffects dir req delta).foldl DirEffect.apply dir) = dirRows dir ++ delta := by
  rw [dirRows_run (archiveEffects_safe h hd).1]
  congr 1
  unfold archiveEffects
  have hrenames : (reconcileFrom req.renameOk dir dir none).1.flatMap DirEffect.written = [] := reconcileFrom_written
  generalize reconcileFrom req.renameOk dir dir none = renamed at hrenames ⊢
  obtain ⟨renames, last⟩ := renamed
  dsimp only at hrenames ⊢
  split
  next hempty => rw [hrenames, List.isEmpty_iff.mp hempty]
  next =>
    rw [List.flatMap_append, hrenames, List.flatMap_cons, healIfAheadOfOwnMtime_written]
    simp [DirEffect.written]

end Remudero.Ledger
