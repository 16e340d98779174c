import Remudero.Lib.Custody
import Remudero.Ledger.History
import Remudero.Ledger.Seal

/-! # Every row arrives once

The invariant `Inv` of appenders and rotations.  The history of a state (`hist`) is what the
archives hold, the live lines that are not archived yet, and the rows that the rotation is about to
drain into the live file.  Every row handed over is in custody: it is still pending with its
appender (unwritten, or behind a seal) or it stands exactly once in the history (`Custody`).

The steps of a rotation hardly change the history: archiving moves rows from the live part to the
archives, the rename replaces archived lines by a core of archived lines, the drain moves rows
from one inode to the other.  What an appender writes enters the history unless its inode is sealed,
and then it is still pending because it stands behind the seal. -/

namespace Remudero.Ledger

open Remudero.Lib

/-- The text of the seal carries its mark. -/
theorem marked_sealRow (nowIso host nonce : Text) : marked (sealRow nowIso host nonce) = true := by
  unfold marked Text.contains
  rw [decide_eq_true_eq]
  have hfield : rotationSealMark =
      Json.quote "step".toList ++ ':' :: Json.stringify (.str "ledger.rotation_sealed".toList) := by decide
  rw [hfield]
  exact Json.field_infix_stringify (by simp)

/-! ### What an appender still has to deliver -/

namespace AppendPc

/-- Every row that the call is about. -/
def rows : AppendPc → List Row
  | .idle => []
  | .opening row flag => row :: flag.toList
  | .opened _ row flag => row :: flag.toList
  | .wrote _ row flag => row :: flag.toList
  | .checking _ blocks => blocks.flatten
  | .reopening block => block
  | .reopened _ block => block

/-- The rows not written yet and those behind a seal. -/
def pending (inodes : ℕ → List Row) : AppendPc → List Row
  | .idle => []
  | .opening row flag => row :: flag.toList
  | .opened _ row flag => row :: flag.toList
  | .wrote ino row flag => (behindFirst marked (inodes ino) [[row]]).flatten ++ flag.toList
  | .checking ino blocks => (behindFirst marked (inodes ino) blocks).flatten
  | .reopening block => block
  | .reopened _ block => block

/-- The inode exists and blocks are not empty. -/
def WellFormed (made : ℕ) : AppendPc → Prop
  | .idle => True
  | .opening _ _ => True
  | .opened ino _ _ => ino < made
  | .wrote ino _ _ => ino < made
  | .checking ino blocks => ino < made ∧ ∀ b ∈ blocks, b ≠ []
  | .reopening block => block ≠ []
  | .reopened ino block => ino < made ∧ block ≠ []

variable {inodes : ℕ → List Row} {made : ℕ} {pc : AppendPc} {ino : ℕ} {xs : List Row}

theorem behindFirst_sublist {p : Row → Bool} {l : List Row} {blocks : List (List Row)} :
    (behindFirst p l blocks).Sublist blocks := by
  unfold behindFirst
  split
  · exact List.nil_sublist _
  · exact List.filter_sublist

theorem pending_sublist : (pc.pending inodes).Sublist pc.rows := by
  cases pc with
  | idle => exact List.Sublist.refl _
  | opening row flag => exact List.Sublist.refl _
  | opened ino row flag => exact List.Sublist.refl _
  | wrote ino row flag =>
      have h : ((behindFirst marked (inodes ino) [[row]]).flatten ++ flag.toList).Sublist
          ([[row]].flatten ++ flag.toList) :=
        (behindFirst_sublist.flatten).append (List.Sublist.refl _)
      exact h
  | checking ino blocks => exact behindFirst_sublist.flatten
  | reopening block => exact List.Sublist.refl _
  | reopened ino block => exact List.Sublist.refl _

theorem WellFormed.mono {made' : ℕ} (h : pc.WellFormed made) (hle : made ≤ made') : pc.WellFormed made' := by
  cases pc with
  | idle => trivial
  | opening row flag => trivial
  | opened ino row flag => exact lt_of_lt_of_le h hle
  | wrote ino row flag => exact lt_of_lt_of_le h hle
  | checking ino blocks => exact ⟨lt_of_lt_of_le h.1 hle, h.2⟩
  | reopening block => exact h
  | reopened ino block => exact ⟨lt_of_lt_of_le h.1 hle, h.2⟩

/-- What is pending depends on the lines of existing inodes only through what stands behind their seals. -/
theorem pending_congr {inodes' : ℕ → List Row} (h : pc.WellFormed made)
    (hsame : ∀ i < made, ∀ blocks : List (List Row), (∀ b ∈ blocks, b ≠ [] ∧ ∀ x ∈ b, x ∈ pc.rows) →
      behindFirst marked (inodes' i) blocks = behindFirst marked (inodes i) blocks) :
    pc.pending inodes' = pc.pending inodes := by
  cases pc with
  | idle => rfl
  | opening row flag => rfl
  | opened ino row flag => rfl
  | wrote ino row flag =>
      simp only [pending]
      rw [hsame ino h [[row]] (by simp [rows])]
  | checking ino blocks =>
      simp only [pending]
      rw [hsame ino h.1 blocks fun b hb => ⟨h.2 b hb, fun x hx => List.mem_flatten.mpr ⟨b, hb, hx⟩⟩]
  | reopening block => rfl
  | reopened ino block => rfl

/-- Somebody else's rows at the end of an inode. -/
theorem pending_write (h : pc.WellFormed made) (hdisj : ∀ x ∈ xs, x ∉ pc.rows) :
    pc.pending (Function.update inodes ino (inodes ino ++ xs)) = pc.pending inodes := by
  refine pending_congr h fun i _ blocks hblocks => ?_
  by_cases hi : i = ino
  · subst hi
    rw [Function.update_self]
    refine behindFirst_append fun b hb => ⟨(hblocks b hb).1, ?_⟩
    intro x hx hxb
    exact hdisj x hx ((hblocks b hb).2 x hxb)
  · rw [Function.update_of_ne hi]

/-- Lines without a mark at the end of an inode without one. -/
theorem pending_write_unmarked (h : pc.WellFormed made) (hold : ∀ x ∈ inodes ino, marked x = false)
    (hnew : ∀ x ∈ xs, marked x = false) :
    pc.pending (Function.update inodes ino (inodes ino ++ xs)) = pc.pending inodes := by
  refine pending_congr h fun i _ blocks _ => ?_
  by_cases hi : i = ino
  · subst hi
    rw [Function.update_self, behindFirst_of_none hold, behindFirst_of_none]
    intro x hx
    rcases List.mem_append.mp hx with hx | hx
    · exact hold x hx
    · exact hnew x hx
  · rw [Function.update_of_ne hi]

/-- A new inode. -/
theorem pending_new (h : pc.WellFormed made) :
    pc.pending (Function.update inodes made xs) = pc.pending inodes := by
  refine pending_congr h fun i hi blocks _ => ?_
  rw [Function.update_of_ne (by omega)]

end AppendPc

namespace SealState

variable {D : Type} [DecidableEq D] {digest : List Row → D} {stepOf : Row → Option Text} {tsMs : Row → Option ℤ}

/-! ### The invariant -/

/-- The rows that the rotation is about to append to the live file. -/
def drain (s : SealState D) : List Row :=
  match s.rotator with
  | .renamed job _ drainFrom => (s.inodes job.ino).drop drainFrom
  | .sealed job _ drainFrom => ((s.inodes job.ino).drop drainFrom).takeWhile fun row => row ≠ job.sealLine
  | .drained _ _ rows => rows
  | _ => []

/-- The inode is replaced and not sealed yet. -/
def Dying (s : SealState D) (i : ℕ) : Prop :=
  match s.rotator with
  | .renamed job _ _ => job.ino = i
  | _ => False

/-- The archived rows, the live rows `later` that are not archived, and the rows to be drained. -/
def hist (s : SealState D) (later : List Row) : List Row := dirRows s.dir ++ (later ++ s.drain)

def pendingOf (s : SealState D) (a : ℕ) : List Row := (s.appenders a).pending s.inodes

/-- The sidecar describes the rows `core`. -/
def Carries (digest : List Row → D) (carried : Option (CarriedPrefix D)) (core : List Row) : Prop :=
  (carried = none ∧ core = []) ∨ carried = some ⟨rowsBytes core, digest core⟩

/-- The rotation's own rows are known and without a mark, its seal has one. -/
structure JobOk (notes : List Row) (job : RotateJob) : Prop where
  notes_known : ∀ row ∈ job.rotation.notes, row ∈ notes
  notes_unmarked : ∀ row ∈ job.rotation.notes, marked row = false
  seal_marked : marked job.sealLine = true

/-- The core is made of archived rows, each taken once. -/
structure CoreOk (items : List Row) (dir : ArchiveDir) (core : List Row) : Prop where
  archived : ∀ row ∈ core, row ∈ dirRows dir
  once : ∀ row ∈ items, core.count row ≤ 1

/-- What holds at each point of a rotation, where the live file is `core ++ later`. -/
def RotationInv (digest : List Row → D) (items notes : List Row) (s : SealState D) (core later : List Row) : Prop :=
  match s.rotator with
  | .idle => Carries digest s.carried core
  | .snapshotted job =>
      Carries digest s.carried core ∧ JobOk notes job ∧ job.ino = s.live ∧ Dated s.dir job.rotation.archive ∧
        ∃ delta rest, job.snapshot = core ++ delta ∧ later = delta ++ rest
  | .archived job chosen => JobOk notes job ∧ job.ino = s.live ∧ core = job.snapshot ∧ CoreOk items s.dir chosen
  | .staged job chosen tail =>
      JobOk notes job ∧ job.ino = s.live ∧ core = job.snapshot ∧ CoreOk items s.dir chosen ∧ tail <+: later
  | .confirmed job chosen tail =>
      JobOk notes job ∧ job.ino = s.live ∧ core = job.snapshot ∧ CoreOk items s.dir chosen ∧ tail <+: later
  | .renamed job chosen drainFrom =>
      JobOk notes job ∧ job.ino ≠ s.live ∧ job.ino < s.made ∧ core = chosen ∧
        drainFrom ≤ (s.inodes job.ino).length ∧ ∀ row ∈ s.inodes job.ino, marked row = false
  | .sealed job chosen drainFrom =>
      job.ino ≠ s.live ∧ core = chosen ∧ job.sealLine ∈ (s.inodes job.ino).drop drainFrom
  | .drained _ chosen _ => core = chosen
  | .appended _ chosen => core = chosen

/-- The invariant, over the rows `items` handed so far and the rows `notes` of the rotations. -/
structure Inv (digest : List Row → D) (items notes : List Row) (s : SealState D) (core later : List Row) : Prop where
  live_made : s.live < s.made
  live_eq : s.liveLines = core ++ later
  calls : ∀ a, (s.appenders a).WellFormed s.made
  rows_mem : ∀ a, ∀ row ∈ (s.appenders a).rows, row ∈ items
  rows_nodup : ∀ a, (s.appenders a).rows.Nodup
  rows_disjoint : ∀ a b, a ≠ b → ∀ row ∈ (s.appenders a).rows, row ∉ (s.appenders b).rows
  custody : Custody items notes (s.hist later) s.pendingOf
  core_ok : CoreOk items s.dir core
  items_unmarked : ∀ row ∈ items, marked row = false
  hist_unmarked : ∀ row ∈ s.hist later, marked row = false
  sealed : ∀ i < s.made, i ≠ s.live → ¬ s.Dying i → ∃ row ∈ s.inodes i, marked row = true
  named : WellNamed s.dir
  rotation : RotationInv digest items notes s core later

variable {s t : SealState D} {items notes core later : List Row} {a ino : ℕ} {b : List Row} {pc : AppendPc}

omit [DecidableEq D] in
theorem Inv.live_unmarked (h : Inv digest items notes s core later) : ∀ row ∈ s.inodes s.live, marked row = false := by
  intro row hrow
  have hrow' : row ∈ core ++ later := h.live_eq ▸ hrow
  refine h.hist_unmarked row ?_
  rcases List.mem_append.mp hrow' with hc | hl
  · exact List.mem_append_left _ (h.core_ok.archived row hc)
  · exact List.mem_append_right _ (List.mem_append_left _ hl)

omit [DecidableEq D] in
theorem Inv.pending_rows (h : Inv digest items notes s core later) : ∀ a, ∀ row ∈ s.pendingOf a, row ∈ items :=
  fun a row hrow => h.rows_mem a row (AppendPc.pending_sublist.subset hrow)

omit [DecidableEq D] in
/-- A seal of an inode without a name, or none of an inode that has one: the code's test is the plain one. -/
theorem Inv.rowsBehindRotationSeal_eq (h : Inv digest items notes s core later) (blocks : List (List Row)) :
    s.rowsBehindRotationSeal ino blocks = behindFirst marked (s.inodes ino) blocks := by
  unfold rowsBehindRotationSeal
  split
  next heq =>
    subst heq
    rw [behindFirst_of_none h.live_unmarked]
  next => rfl

/-! ### Steps of an appender -/

omit [DecidableEq D] in
/-- A call goes on without writing. -/
theorem Inv.setPc (h : Inv digest items notes s core later) (hwf : pc.WellFormed s.made)
    (hrows : pc.rows.Sublist (s.appenders a).rows) (hpend : pc.pending s.inodes = s.pendingOf a) :
    Inv digest items notes (s.setPc a pc) core later := by
  have happ : ∀ c, (s.setPc a pc).appenders c = if c = a then pc else s.appenders c := by
    intro c
    simp only [SealState.setPc, Function.update_apply]
  have hsub : ∀ c, ((s.setPc a pc).appenders c).rows.Sublist (s.appenders c).rows := by
    intro c
    rw [happ c]
    split
    next hc => rw [hc]; exact hrows
    next => exact List.Sublist.refl _
  refine ⟨h.live_made, h.live_eq, ?_, ?_, ?_, ?_, ?_, h.core_ok, h.items_unmarked,
    h.hist_unmarked, h.sealed, h.named, ?_⟩
  · intro c
    rw [happ c]
    split
    · exact hwf
    · exact h.calls c
  · intro c row hrow
    exact h.rows_mem c row ((hsub c).subset hrow)
  · intro c
    exact (h.rows_nodup c).sublist (hsub c)
  · intro c d hcd row hc hd
    exact h.rows_disjoint c d hcd row ((hsub c).subset hc) ((hsub d).subset hd)
  · refine h.custody.perm (List.Perm.refl _) fun c x => ?_
    show x ∈ ((s.setPc a pc).appenders c).pending s.inodes ↔ _
    rw [happ c]
    split
    next hc => rw [hc, hpend]
    next => exact Iff.rfl
  · exact h.rotation

/-! ### Writing -/

omit [DecidableEq D] in
theorem drain_write_live (h : Inv digest items notes s core later) (b : List Row) :
    (s.write s.live b).drain = s.drain := by
  have hrot := h.rotation
  unfold RotationInv at hrot
  unfold drain
  cases hpc : s.rotator with
  | renamed job chosen drainFrom =>
      rw [hpc] at hrot
      simp only [write, hpc, Function.update_of_ne hrot.2.1]
  | sealed job chosen drainFrom =>
      rw [hpc] at hrot
      simp only [write, hpc, Function.update_of_ne hrot.1]
  | _ => simp only [write, hpc]

omit [DecidableEq D] in
/-- Lines of the live file. -/
theorem rotationInv_write_live (h : Inv digest items notes s core later) (b : List Row) :
    RotationInv digest items notes (s.write s.live b) core (later ++ b) := by
  have hrot := h.rotation
  unfold RotationInv at hrot ⊢
  cases hpc : s.rotator with
  | idle =>
      rw [hpc] at hrot
      simpa only [write, hpc] using hrot
  | snapshotted job =>
      rw [hpc] at hrot
      obtain ⟨hcar, hjob, hlive, hdated, delta, rest, hsnap, hlater⟩ := hrot
      simp only [write, hpc]
      exact ⟨hcar, hjob, hlive, hdated, delta, rest ++ b, hsnap, by rw [hlater, List.append_assoc]⟩
  | archived job chosen =>
      rw [hpc] at hrot
      simpa only [write, hpc] using hrot
  | staged job chosen tail =>
      rw [hpc] at hrot
      obtain ⟨hjob, hlive, hcore, hok, htail⟩ := hrot
      simp only [write, hpc]
      exact ⟨hjob, hlive, hcore, hok, htail.trans (List.prefix_append _ _)⟩
  | confirmed job chosen tail =>
      rw [hpc] at hrot
      obtain ⟨hjob, hlive, hcore, hok, htail⟩ := hrot
      simp only [write, hpc]
      exact ⟨hjob, hlive, hcore, hok, htail.trans (List.prefix_append _ _)⟩
  | renamed job chosen drainFrom =>
      rw [hpc] at hrot
      simpa only [write, hpc, Function.update_of_ne hrot.2.1] using hrot
  | sealed job chosen drainFrom =>
      rw [hpc] at hrot
      simpa only [write, hpc, Function.update_of_ne hrot.1] using hrot
  | drained job chosen rows =>
      rw [hpc] at hrot
      simpa only [write, hpc] using hrot
  | appended job chosen =>
      rw [hpc] at hrot
      simpa only [write, hpc] using hrot

omit [DecidableEq D] in
/-- Lines of an inode that the path does not name. -/
theorem rotationInv_write_other (h : Inv digest items notes s core later) (hino : ino ≠ s.live)
    (hb : ∀ row ∈ b, marked row = false) : RotationInv digest items notes (s.write ino b) core later := by
  have hrot := h.rotation
  unfold RotationInv at hrot ⊢
  cases hpc : s.rotator with
  | renamed job chosen drainFrom =>
      rw [hpc] at hrot
      obtain ⟨hjob, hne, hmade, hcore, hfrom, hun⟩ := hrot
      simp only [write, hpc]
      refine ⟨hjob, hne, hmade, hcore, ?_⟩
      by_cases hi : job.ino = ino
      · subst hi
        rw [Function.update_self]
        refine ⟨by rw [List.length_append]; omega, ?_⟩
        intro row hrow
        rcases List.mem_append.mp hrow with hrow | hrow
        · exact hun row hrow
        · exact hb row hrow
      · rw [Function.update_of_ne hi]
        exact ⟨hfrom, hun⟩
  | sealed job chosen drainFrom =>
      rw [hpc] at hrot
      obtain ⟨hne, hcore, hseal⟩ := hrot
      simp only [write, hpc]
      refine ⟨hne, hcore, ?_⟩
      by_cases hi : job.ino = ino
      · subst hi
        rw [Function.update_self, List.drop_append]
        exact List.mem_append_left _ hseal
      · rw [Function.update_of_ne hi]
        exact hseal
  | _ =>
      rw [hpc] at hrot
      simpa only [write, hpc] using hrot

omit [DecidableEq D] in
/-- The drain takes what is written to the replaced inode before the seal, and nothing else. -/
theorem drain_write_other (h : Inv digest items notes s core later) (hino : ino ≠ s.live) :
    (s.Dying ino ∧ (s.write ino b).drain = s.drain ++ b) ∨ (¬ s.Dying ino ∧ (s.write ino b).drain = s.drain) := by
  have hrot := h.rotation
  unfold RotationInv at hrot
  unfold drain Dying
  cases hpc : s.rotator with
  | renamed job chosen drainFrom =>
      rw [hpc] at hrot
      simp only [write, hpc]
      by_cases hi : job.ino = ino
      · left
        subst hi
        refine ⟨rfl, ?_⟩
        rw [Function.update_self, List.drop_append_of_le_length hrot.2.2.2.2.1]
      · right
        rw [Function.update_of_ne hi]
        exact ⟨hi, rfl⟩
  | sealed job chosen drainFrom =>
      rw [hpc] at hrot
      simp only [write, hpc]
      right
      refine ⟨not_false, ?_⟩
      by_cases hi : job.ino = ino
      · subst hi
        rw [Function.update_self, List.drop_append]
        exact takeWhile_append_of_stop ⟨_, hrot.2.2, by simp⟩
      · rw [Function.update_of_ne hi]
  | _ =>
      right
      simp only [write, hpc]
      exact ⟨not_false, trivial⟩

omit [DecidableEq D] in
/-- The part of the invariant that every write of an appender keeps. -/
theorem Inv.write_of_custody {later' : List Row} (h : Inv digest items notes s core later)
    (hwf : pc.WellFormed s.made) (hrows : pc.rows = (s.appenders a).rows)
    (hlive : (s.write ino b).liveLines = core ++ later')
    (hcustody : Custody items notes ((s.write ino b).hist later') ((s.write ino b).setPc a pc).pendingOf)
    (hhist : ∀ row ∈ (s.write ino b).hist later', row ∈ s.hist later ∨ row ∈ items)
    (hrot : RotationInv digest items notes (s.write ino b) core later') :
    Inv digest items notes ((s.write ino b).setPc a pc) core later' := by
  have happ : ∀ c, (((s.write ino b).setPc a pc).appenders c).rows = (s.appenders c).rows := by
    intro c
    simp only [SealState.setPc, SealState.write, Function.update_apply]
    split
    next hc => rw [hc, hrows]
    next => rfl
  refine ⟨h.live_made, hlive, ?_, ?_, ?_, ?_, hcustody, h.core_ok, h.items_unmarked, ?_, ?_, h.named, hrot⟩
  · intro c
    simp only [SealState.setPc, SealState.write, Function.update_apply]
    split
    · exact hwf
    · exact h.calls c
  · intro c row hrow
    rw [happ c] at hrow
    exact h.rows_mem c row hrow
  · intro c
    rw [happ c]
    exact h.rows_nodup c
  · intro c d hcd row hc
    rw [happ c] at hc
    rw [happ d]
    exact h.rows_disjoint c d hcd row hc
  · intro row hrow
    rcases hhist row hrow with hin | hitem
    · exact h.hist_unmarked row hin
    · exact h.items_unmarked row hitem
  · intro i hi hne hdying
    obtain ⟨row, hrow, hmark⟩ := h.sealed i hi hne hdying
    refine ⟨row, ?_, hmark⟩
    simp only [SealState.setPc, SealState.write, Function.update_apply]
    split
    next heq => exact List.mem_append_left _ (heq ▸ hrow)
    next => exact hrow

omit [DecidableEq D] in
/-- Nobody else's pending rows change by a write. -/
theorem Inv.pending_write_other {c : ℕ} (h : Inv digest items notes s core later) (hc : c ≠ a)
    (hb : ∀ row ∈ b, row ∈ (s.appenders a).rows) :
    ((s.write ino b).setPc a pc).pendingOf c = s.pendingOf c := by
  unfold pendingOf
  simp only [SealState.setPc, SealState.write, Function.update_of_ne hc]
  refine AppendPc.pending_write (h.calls c) fun row hrow => ?_
  exact h.rows_disjoint a c (fun heq => hc heq.symm) row (hb row hrow)

omit [DecidableEq D] in
/-- **An appender writes.**  On an inode without a seal the rows enter the history, behind a seal
they stay pending. -/
theorem Inv.write (h : Inv digest items notes s core later) (hino : ino < s.made)
    (hb : ∀ row ∈ b, row ∈ (s.appenders a).rows) (hwf : pc.WellFormed s.made)
    (hrows : pc.rows = (s.appenders a).rows)
    (hopen : (∀ row ∈ s.inodes ino, marked row = false) →
      (s.pendingOf a).Perm (b ++ pc.pending (Function.update s.inodes ino (s.inodes ino ++ b))))
    (hclosed : (∃ row ∈ s.inodes ino, marked row = true) →
      pc.pending (Function.update s.inodes ino (s.inodes ino ++ b)) = s.pendingOf a) :
    ∃ later', Inv digest items notes ((s.write ino b).setPc a pc) core later' := by
  have hitems : ∀ row ∈ b, row ∈ items := fun row hrow => h.rows_mem a row (hb row hrow)
  have hown : ((s.write ino b).setPc a pc).pendingOf a =
      pc.pending (Function.update s.inodes ino (s.inodes ino ++ b)) := by
    unfold pendingOf
    simp only [SealState.setPc, SealState.write, Function.update_self]
  have hdeliver : ∀ {log : List Row}, (∀ row ∈ s.inodes ino, marked row = false) → log.Perm (s.hist later ++ b) →
      Custody items notes log ((s.write ino b).setPc a pc).pendingOf := by
    intro log hun hlog
    refine h.custody.deliver (i := a) hlog ?_ ?_ ?_ ?_ ?_
    · exact h.pending_rows a
    · exact (h.rows_nodup a).sublist AppendPc.pending_sublist
    · rw [hown]
      exact hopen hun
    · intro c hc
      exact h.pending_write_other hc hb
    · intro c hc row hrow hrow'
      exact h.rows_disjoint a c (fun heq => hc heq.symm) row (AppendPc.pending_sublist.subset hrow)
        (AppendPc.pending_sublist.subset hrow')
  have hmem : ∀ {log : List Row}, log.Perm (s.hist later ++ b) → ∀ row ∈ log, row ∈ s.hist later ∨ row ∈ items := by
    intro log hlog row hrow
    rcases List.mem_append.mp (hlog.mem_iff.mp hrow) with hin | hin
    · exact .inl hin
    · exact .inr (hitems row hin)
  by_cases hlive : ino = s.live
  · -- the live file
    subst hlive
    have hperm : ((s.write s.live b).hist (later ++ b)).Perm (s.hist later ++ b) := by
      unfold hist
      rw [drain_write_live h b]
      show (dirRows s.dir ++ ((later ++ b) ++ s.drain)).Perm (dirRows s.dir ++ (later ++ s.drain) ++ b)
      rw [List.append_assoc later, List.append_assoc (dirRows s.dir), List.append_assoc later]
      exact ((List.perm_append_comm.append_left later).append_left (dirRows s.dir))
    refine ⟨later ++ b, h.write_of_custody hwf hrows ?_ (hdeliver h.live_unmarked hperm) (hmem hperm)
      (rotationInv_write_live h b)⟩
    unfold liveLines
    simp only [SealState.write, Function.update_self]
    rw [← List.append_assoc, ← h.live_eq]
    rfl
  · have hlines : (s.write ino b).liveLines = core ++ later := by
      unfold liveLines
      simp only [SealState.write, Function.update_of_ne (Ne.symm hlive)]
      exact h.live_eq
    have hrot := rotationInv_write_other (b := b) h hlive fun row hrow => h.items_unmarked row (hitems row hrow)
    rcases drain_write_other (b := b) h hlive with ⟨hdying, hdrain⟩ | ⟨hdying, hdrain⟩
    · -- the replaced inode before its seal
      have hun : ∀ row ∈ s.inodes ino, marked row = false := by
        have hr := h.rotation
        unfold Dying at hdying
        unfold RotationInv at hr
        cases hpc : s.rotator with
        | renamed job chosen drainFrom =>
            rw [hpc] at hr hdying
            subst hdying
            exact hr.2.2.2.2.2
        | _ =>
            rw [hpc] at hdying
            cases hdying
      have hperm : ((s.write ino b).hist later).Perm (s.hist later ++ b) := by
        unfold hist
        rw [hdrain]
        show (dirRows s.dir ++ (later ++ (s.drain ++ b))).Perm (dirRows s.dir ++ (later ++ s.drain) ++ b)
        rw [List.append_assoc, List.append_assoc]
      exact ⟨later, h.write_of_custody hwf hrows hlines (hdeliver hun hperm) (hmem hperm) hrot⟩
    · -- a sealed inode
      have hhist : (s.write ino b).hist later = s.hist later := by
        unfold hist
        rw [hdrain]
        rfl
      refine ⟨later, h.write_of_custody hwf hrows hlines ?_ ?_ hrot⟩
      · rw [hhist]
        refine h.custody.perm (List.Perm.refl _) fun c x => ?_
        by_cases hc : c = a
        · subst hc
          rw [hown, hclosed (h.sealed ino hino hlive hdying)]
        · rw [h.pending_write_other hc hb]
      · rw [hhist]
        exact fun row hrow => .inl hrow

omit [DecidableEq D] in
/-- What a block just written leaves pending. -/
theorem pending_own {l : List Row} (hb : b ≠ []) (hbun : ∀ row ∈ b, marked row = false) :
    ((∀ row ∈ l, marked row = false) → behindFirst marked (l ++ b) [b] = []) ∧
      ((∃ row ∈ l, marked row = true) → behindFirst marked (l ++ b) [b] = [b]) := by
  refine ⟨fun hl => behindFirst_of_none ?_, behindFirst_own hb⟩
  intro row hrow
  rcases List.mem_append.mp hrow with hrow | hrow
  · exact hl row hrow
  · exact hbun row hrow

omit [DecidableEq D] in
/-- Every system call of an appender keeps the invariant. -/
theorem Inv.nextAppend (h : Inv digest items notes s core later) (hstep : s.nextAppend a = some t) :
    ∃ later', Inv digest items notes t core later' := by
  unfold SealState.nextAppend at hstep
  have hcall := h.calls a
  have hmem := h.rows_mem a
  have hnodup := h.rows_nodup a
  cases hpc : s.appenders a with
  | idle => rw [hpc] at hstep; cases hstep
  | opening row flag =>
      rw [hpc] at hstep
      obtain rfl := Option.some.inj hstep
      refine ⟨later, h.setPc h.live_made ?_ ?_⟩
      · rw [hpc]; exact List.Sublist.refl _
      · unfold pendingOf; rw [hpc]; rfl
  | opened ino row flag =>
      rw [hpc] at hstep hcall hmem
      obtain rfl := Option.some.inj hstep
      have hrow : ∀ row' ∈ [row], marked row' = false := by
        intro row' hrow'
        obtain rfl := List.mem_singleton.mp hrow'
        exact h.items_unmarked row' (hmem row' List.mem_cons_self)
      have hown := pending_own (l := s.inodes ino) (b := [row]) (by simp) hrow
      refine h.write hcall ?_ hcall (by rw [hpc]; rfl) ?_ ?_
      · rw [hpc]
        intro row' hrow'
        obtain rfl := List.mem_singleton.mp hrow'
        exact List.mem_cons_self
      · intro hun
        unfold pendingOf
        simp only [hpc, AppendPc.pending, Function.update_self, hown.1 hun, List.flatten_nil, List.nil_append]
        exact List.Perm.refl _
      · intro hsealed
        unfold pendingOf
        simp only [hpc, AppendPc.pending, Function.update_self, hown.2 hsealed]
        rfl
  | wrote ino row flag =>
      cases flag with
      | none =>
          rw [hpc] at hstep hcall
          obtain rfl := Option.some.inj hstep
          refine ⟨later, h.setPc ⟨hcall, by simp⟩ ?_ ?_⟩
          · rw [hpc]; exact List.Sublist.refl _
          · unfold pendingOf
            simp only [hpc, AppendPc.pending, Option.toList_none, List.append_nil]
      | some flag =>
          rw [hpc] at hstep hcall hmem hnodup
          obtain rfl := Option.some.inj hstep
          have hne : row ≠ flag := by
            intro heq
            simp [AppendPc.rows, heq] at hnodup
          have hflag : ∀ row' ∈ [flag], marked row' = false := by
            intro row' hrow'
            obtain rfl := List.mem_singleton.mp hrow'
            exact h.items_unmarked row' (hmem row' (by simp [AppendPc.rows]))
          have hown := pending_own (l := s.inodes ino) (b := [flag]) (by simp) hflag
          -- the row was written before the flag and stands where it stood
          have hrow : behindFirst marked (s.inodes ino ++ [flag]) [[row]] = behindFirst marked (s.inodes ino) [[row]] :=
            behindFirst_append (by simpa using Ne.symm hne)
          refine h.write hcall ?_ ⟨hcall, by simp⟩ (by rw [hpc]; rfl) ?_ ?_
          · rw [hpc]
            intro row' hrow'
            obtain rfl := List.mem_singleton.mp hrow'
            simp [AppendPc.rows]
          · intro hun
            unfold pendingOf
            simp only [hpc, AppendPc.pending, Function.update_self]
            rw [behindFirst_cons (l := s.inodes ino ++ [flag]), hrow, hown.1 hun, behindFirst_of_none hun]
            exact List.Perm.refl _
          · intro hsealed
            unfold pendingOf
            simp only [hpc, AppendPc.pending, Function.update_self]
            rw [behindFirst_cons (l := s.inodes ino ++ [flag]), hrow, hown.2 hsealed, List.flatten_append]
            rfl
  | checking ino blocks =>
      rw [hpc] at hstep hcall
      obtain rfl := Option.some.inj hstep
      rw [h.rowsBehindRotationSeal_eq blocks]
      have hpend : s.pendingOf a = (behindFirst marked (s.inodes ino) blocks).flatten := by
        unfold pendingOf; rw [hpc]; rfl
      by_cases hempty : (behindFirst marked (s.inodes ino) blocks).isEmpty
      · rw [if_pos hempty]
        refine ⟨later, h.setPc trivial (List.nil_sublist _) ?_⟩
        rw [hpend, List.isEmpty_iff.mp hempty]
        rfl
      · rw [if_neg hempty]
        refine ⟨later, h.setPc ?_ ?_ hpend.symm⟩
        · -- a block behind the seal is not empty
          show (behindFirst marked (s.inodes ino) blocks).flatten ≠ []
          rw [Ne, List.flatten_eq_nil_iff]
          intro hall
          cases hbehind : behindFirst marked (s.inodes ino) blocks with
          | nil => rw [hbehind] at hempty; exact hempty rfl
          | cons c cs =>
              have hc : c ∈ behindFirst marked (s.inodes ino) blocks := by rw [hbehind]; exact List.mem_cons_self
              exact hcall.2 c (AppendPc.behindFirst_sublist.subset hc) (hall c hc)
        · rw [hpc]
          exact AppendPc.behindFirst_sublist.flatten
  | reopening block =>
      rw [hpc] at hstep hcall
      obtain rfl := Option.some.inj hstep
      refine ⟨later, h.setPc ⟨h.live_made, hcall⟩ ?_ ?_⟩
      · rw [hpc]; exact List.Sublist.refl _
      · unfold pendingOf; rw [hpc]; rfl
  | reopened ino block =>
      rw [hpc] at hstep hcall hmem
      obtain rfl := Option.some.inj hstep
      have hown := pending_own (l := s.inodes ino) hcall.2 fun row hrow => h.items_unmarked row (hmem row hrow)
      refine h.write hcall.1 ?_ ⟨hcall.1, by simpa using hcall.2⟩ ?_ ?_ ?_
      · rw [hpc]
        exact fun row hrow => hrow
      · rw [hpc]
        simp [AppendPc.rows]
      · intro hun
        unfold pendingOf
        simp only [hpc, AppendPc.pending, Function.update_self, hown.1 hun, List.flatten_nil, List.append_nil]
        exact List.Perm.refl _
      · intro hsealed
        unfold pendingOf
        simp only [hpc, AppendPc.pending, Function.update_self, hown.2 hsealed]
        simp

/-! ### Calls and notes -/

omit [DecidableEq D] in
theorem RotationInv.mono {items' notes' : List Row} (h : RotationInv digest items notes s core later)
    (hcore : ∀ chosen, CoreOk items s.dir chosen → CoreOk items' s.dir chosen) (hnotes : ∀ row ∈ notes, row ∈ notes') :
    RotationInv digest items' notes' s core later := by
  have hjob : ∀ job, JobOk notes job → JobOk notes' job := fun job hok =>
    ⟨fun row hrow => hnotes row (hok.notes_known row hrow), hok.notes_unmarked, hok.seal_marked⟩
  unfold RotationInv at h ⊢
  cases hpc : s.rotator with
  | snapshotted job => rw [hpc] at h; exact ⟨h.1, hjob _ h.2.1, h.2.2⟩
  | archived job chosen => rw [hpc] at h; exact ⟨hjob _ h.1, h.2.1, h.2.2.1, hcore _ h.2.2.2⟩
  | staged job chosen tail => rw [hpc] at h; exact ⟨hjob _ h.1, h.2.1, h.2.2.1, hcore _ h.2.2.2.1, h.2.2.2.2⟩
  | confirmed job chosen tail => rw [hpc] at h; exact ⟨hjob _ h.1, h.2.1, h.2.2.1, hcore _ h.2.2.2.1, h.2.2.2.2⟩
  | renamed job chosen drainFrom => rw [hpc] at h; exact ⟨hjob _ h.1, h.2⟩
  | _ => rw [hpc] at h; exact h

omit [DecidableEq D] in
theorem Inv.more_notes (h : Inv digest items notes s core later) (ns : List Row) :
    Inv digest items (notes ++ ns) s core later :=
  { h with
    custody := h.custody.more_notes ns
    rotation := h.rotation.mono (fun _ hok => hok) fun _ hrow => List.mem_append_left _ hrow }

omit [DecidableEq D] in
/-- A call with fresh rows. -/
theorem Inv.call {row : Row} {flag : Option Row} (h : Inv digest items notes s core later)
    (hidle : s.appenders a = .idle) (hfresh : ∀ x ∈ row :: flag.toList, x ∉ items ∧ x ∉ notes)
    (hnodup : (row :: flag.toList).Nodup) (hun : ∀ x ∈ row :: flag.toList, marked x = false) :
    Inv digest (items ++ row :: flag.toList) notes (s.setPc a (.opening row flag)) core later := by
  have happ : ∀ c, (s.setPc a (.opening row flag)).appenders c =
      if c = a then .opening row flag else s.appenders c := by
    intro c
    simp only [SealState.setPc, Function.update_apply]
  have hcore : ∀ chosen, CoreOk items s.dir chosen → CoreOk (items ++ row :: flag.toList) s.dir chosen := by
    intro chosen hok
    refine ⟨hok.archived, fun x hx => ?_⟩
    rcases List.mem_append.mp hx with hx | hx
    · exact hok.once x hx
    · rw [List.count_eq_zero.mpr]
      · omega
      · intro hin
        rcases h.custody.known x (List.mem_append_left _ (hok.archived x hin)) with hk | hk
        · exact (hfresh x hx).1 hk
        · exact (hfresh x hx).2 hk
  refine ⟨h.live_made, h.live_eq, ?_, ?_, ?_, ?_, ?_, hcore _ h.core_ok, ?_, h.hist_unmarked, h.sealed, h.named, ?_⟩
  · intro c
    rw [happ c]
    split
    · trivial
    · exact h.calls c
  · intro c x hx
    rw [happ c] at hx
    split at hx
    · exact List.mem_append_right _ hx
    · exact List.mem_append_left _ (h.rows_mem c x hx)
  · intro c
    rw [happ c]
    split
    · exact hnodup
    · exact h.rows_nodup c
  · intro c d hcd x hc hd
    rw [happ c] at hc
    rw [happ d] at hd
    split at hc
    · rw [if_neg (by rintro rfl; exact hcd (by assumption))] at hd
      exact (hfresh x hc).1 (h.rows_mem d x hd)
    · split at hd
      · exact (hfresh x hd).1 (h.rows_mem c x hc)
      · exact h.rows_disjoint c d hcd x hc hd
  · refine h.custody.accept (i := a) hfresh ?_ ?_ ?_
    · unfold pendingOf; rw [hidle]; rfl
    · unfold pendingOf; rw [happ a, if_pos rfl]; rfl
    · intro c hc
      unfold pendingOf; rw [happ c, if_neg hc]; rfl
  · intro x hx
    rcases List.mem_append.mp hx with hx | hx
    · exact h.items_unmarked x hx
    · exact hun x hx
  · exact RotationInv.mono h.rotation hcore fun _ hrow => hrow

/-! ### Steps of a rotation -/

omit [DecidableEq D] in
/-- A row of the rotation's own at the end of the live file. -/
theorem Inv.note_live {row : Row} (h : Inv digest items notes s core later) (hdisj : ∀ x ∈ notes, x ∉ items)
    (hrow : row ∈ notes) (hun : marked row = false) :
    Inv digest items notes (s.write s.live [row]) core (later ++ [row]) := by
  have hperm : ((s.write s.live [row]).hist (later ++ [row])).Perm (s.hist later ++ [row]) := by
    unfold hist
    rw [drain_write_live h [row]]
    show (dirRows s.dir ++ ((later ++ [row]) ++ s.drain)).Perm (dirRows s.dir ++ (later ++ s.drain) ++ [row])
    rw [List.append_assoc later, List.append_assoc (dirRows s.dir), List.append_assoc later]
    exact ((List.perm_append_comm.append_left later).append_left (dirRows s.dir))
  have hsingle : ∀ x ∈ [row], marked x = false := by simpa using hun
  have hpend : (s.write s.live [row]).pendingOf = s.pendingOf := by
    funext c
    exact AppendPc.pending_write_unmarked (h.calls c) h.live_unmarked hsingle
  refine ⟨h.live_made, ?_, h.calls, h.rows_mem, h.rows_nodup, h.rows_disjoint, ?_, h.core_ok, h.items_unmarked, ?_, ?_,
    h.named, rotationInv_write_live h [row]⟩
  · unfold liveLines
    simp only [SealState.write, Function.update_self]
    rw [← List.append_assoc, ← h.live_eq]
    rfl
  · rw [hpend]
    exact h.custody.note hperm (by simpa using hrow) hdisj h.pending_rows
  · intro x hx
    rcases List.mem_append.mp (hperm.mem_iff.mp hx) with hx | hx
    · exact h.hist_unmarked x hx
    · exact hsingle x hx
  · intro i hi hne hdying
    obtain ⟨x, hx, hmark⟩ := h.sealed i hi hne hdying
    refine ⟨x, ?_, hmark⟩
    have hne' : i ≠ s.live := hne
    simp only [SealState.write, Function.update_of_ne hne']
    exact hx

omit [DecidableEq D] in
/-- The rotation goes on without touching a file. -/
theorem Inv.setRotator {rot : RotatePc} (h : Inv digest items notes s core later)
    (hdrain : ({ s with rotator := rot } : SealState D).drain = s.drain)
    (hdying : ∀ i, ({ s with rotator := rot } : SealState D).Dying i ↔ s.Dying i)
    (hrot : RotationInv digest items notes { s with rotator := rot } core later) :
    Inv digest items notes { s with rotator := rot } core later := by
  have hhist : ({ s with rotator := rot } : SealState D).hist later = s.hist later := by
    unfold hist
    rw [hdrain]
  refine ⟨h.live_made, h.live_eq, h.calls, h.rows_mem, h.rows_nodup, h.rows_disjoint, ?_, h.core_ok, h.items_unmarked,
    ?_, ?_, h.named, hrot⟩
  · rw [hhist]
    exact h.custody
  · rw [hhist]
    exact h.hist_unmarked
  · intro i hi hne hd
    exact h.sealed i hi hne fun hs => hd ((hdying i).mpr hs)

/-- With a sidecar that describes the core, the delta is what follows it. -/
theorem archivedPrefixBytes_delta {carried : Option (CarriedPrefix D)} {delta : List Row}
    (h : Carries digest carried core) : (archivedPrefixBytes digest carried (core ++ delta)).2 = delta := by
  have hsplit : ∀ rows : List Row, splitAtBytes (rowsBytes rows) (rows ++ delta) = some (rows, delta) := by
    intro rows
    induction rows with
    | nil =>
        show splitAtBytes 0 ([] ++ delta) = _
        unfold splitAtBytes
        rfl
    | cons row rows ih =>
        have hbytes : rowsBytes (row :: rows) = (Text.byteLength row + rowsBytes rows) + 1 := by
          simp only [rowsBytes, List.map_cons, List.sum_cons, rowBytes]
          omega
        have hle : rowBytes row ≤ (Text.byteLength row + rowsBytes rows) + 1 := by
          unfold rowBytes
          omega
        have hrest : (Text.byteLength row + rowsBytes rows) + 1 - rowBytes row = rowsBytes rows := by
          unfold rowBytes
          omega
        rw [hbytes, List.cons_append]
        unfold splitAtBytes
        rw [if_pos hle, hrest, ih]
        rfl
  rcases h with ⟨rfl, rfl⟩ | rfl
  · rfl
  · simp only [archivedPrefixBytes, hsplit core, if_true]

theorem count_flatMap_filter_le {dir : ArchiveDir} {q : Archive → Bool} {p : Archive → Row → Bool} {row : Row} :
    ((dir.filter q).flatMap fun a => a.rows.filter (p a)).count row ≤ (dirRows dir).count row := by
  induction dir with
  | nil => exact le_refl _
  | cons a dir ih =>
      have hrows : ((a.rows.filter (p a)).count row) ≤ a.rows.count row := List.filter_sublist.count_le row
      unfold dirRows at ih ⊢
      rw [List.flatMap_cons, List.count_append, List.filter_cons]
      split
      · rw [List.flatMap_cons, List.count_append]
        omega
      · omega

omit [DecidableEq D] in
/-- The retained core takes every row once. -/
theorem retainedCore_once {l : LedgerState D} {r : Rotation} {snapshot : List Row} {current : Bool} {row : Row}
    (hdir : (dirRows l.dir).count row ≤ 1) (hsnap : snapshot.count row ≤ 1) :
    (LedgerState.retainedCore stepOf tsMs l r snapshot current).count row ≤ 1 := by
  unfold LedgerState.retainedCore
  refine le_trans ((r.keep_sublist _).count_le row) ?_
  have hkeep : ((snapshot.filter fun row => !(Text.trim row).isEmpty).count row) ≤ snapshot.count row :=
    List.filter_sublist.count_le row
  rw [List.count_append]
  split
  · simp only [List.count_nil]
    omega
  next ms hms =>
    generalize hre : rowsToRecarry stepOf tsMs l.dir ms _ snapshot = recarry
    have hle : recarry.count row ≤ (dirRows l.dir).count row := by
      rw [← hre]
      unfold rowsToRecarry
      rw [(List.mergeSort_perm _ _).count_eq]
      exact count_flatMap_filter_le
    by_cases hin : row ∈ recarry
    · -- a recarried row is not in the snapshot
      have hnot : row ∉ snapshot := by
        rw [← hre] at hin
        unfold rowsToRecarry at hin
        rw [List.mem_mergeSort, List.mem_flatMap] at hin
        obtain ⟨a, -, hrow⟩ := hin
        have := (List.mem_filter.mp hrow).2
        simp only [Bool.and_eq_true, decide_eq_true_eq] at this
        exact this.1.2
      have h0 : snapshot.count row = 0 := List.count_eq_zero.mpr hnot
      omega
    · have h0 : recarry.count row = 0 := List.count_eq_zero.mpr hin
      omega

/-- The delta goes to the archives. -/
theorem Inv.archive {job : RotateJob} (h : Inv digest items notes s core later) (hpc : s.rotator = .snapshotted job)
    (hstep : s.nextRotation digest stepOf tsMs = some t) : ∃ later', Inv digest items notes t job.snapshot later' := by
  have hrot := h.rotation
  unfold RotationInv at hrot
  rw [hpc] at hrot
  obtain ⟨hcar, hjob, hlive, hdated, delta, rest, hsnap, hlater⟩ := hrot
  unfold SealState.nextRotation at hstep
  rw [hpc] at hstep
  obtain rfl := Option.some.inj hstep
  have hdelta : (archivedPrefixBytes digest s.carried job.snapshot).2 = delta := by
    rw [hsnap]
    exact archivedPrefixBytes_delta hcar
  have hdrain : s.drain = [] := by unfold drain; rw [hpc]
  rw [hdelta]
  have hsafe : Safe s.dir (archiveEffects s.dir job.rotation.archive delta) := (archiveEffects_safe h.named hdated).1
  have hrows : dirRows ((archiveEffects s.dir job.rotation.archive delta).foldl DirEffect.apply s.dir) =
      dirRows s.dir ++ delta := dirRows_archiveEffects h.named hdated
  have hnamed := hsafe.wellNamed h.named
  generalize (archiveEffects s.dir job.rotation.archive delta).foldl DirEffect.apply s.dir = dir' at hrows hnamed ⊢
  have hhist : s.hist later = dirRows dir' ++ (rest ++ []) := by
    unfold hist
    rw [hrows, hlater, hdrain]
    simp only [List.append_assoc]
  -- the snapshot is archived now, each of its rows once
  have harch : ∀ row ∈ job.snapshot, row ∈ dirRows dir' := by
    intro row hrow
    rw [hrows]
    rw [hsnap] at hrow
    rcases List.mem_append.mp hrow with hrow | hrow
    · exact List.mem_append_left _ (h.core_ok.archived row hrow)
    · exact List.mem_append_right _ hrow
  have hcount : ∀ row ∈ items, (dirRows s.dir).count row ≤ 1 ∧ job.snapshot.count row ≤ 1 := by
    intro row hrow
    have hone := h.custody.once row hrow
    have hcore := h.core_ok.once row hrow
    rw [hhist, hrows] at hone
    rw [hsnap]
    simp only [List.count_append, List.count_nil] at hone ⊢
    by_cases hin : row ∈ core
    · have := List.count_pos_iff.mpr (h.core_ok.archived row hin)
      omega
    · rw [List.count_eq_zero.mpr hin]
      omega
  refine ⟨rest, h.live_made, ?_, h.calls, h.rows_mem, h.rows_nodup, h.rows_disjoint, ?_, ⟨harch, fun row hrow => (hcount row hrow).2⟩,
    h.items_unmarked, ?_, ?_, hnamed, ?_⟩
  · have := h.live_eq
    rw [hlater, ← List.append_assoc, ← hsnap] at this
    exact this
  · have hc := h.custody
    rw [hhist] at hc
    exact hc
  · have hu := h.hist_unmarked
    rw [hhist] at hu
    exact hu
  · intro i hi hne _
    refine h.sealed i hi hne ?_
    unfold Dying
    rw [hpc]
    exact not_false
  · refine ⟨hjob, hlive, rfl, ?_, ?_⟩
    · intro row hrow
      rcases LedgerState.retainedCore_mem hrow with ha | hs
      · rw [hrows]
        exact List.mem_append_left _ (archived_iff.mp ha)
      · exact harch row hs
    · intro row hrow
      exact retainedCore_once (l := s.ledger) (hcount row hrow).1 (hcount row hrow).2

omit [DecidableEq D] in
/-- The new file takes the path: the core, the notes and the lines read since the snapshot. -/
theorem Inv.rename {job : RotateJob} {chosen tail : List Row} (h : Inv digest items notes s core later)
    (hdisj : ∀ x ∈ notes, x ∉ items) (hpc : s.rotator = .confirmed job chosen tail) :
    Inv digest items notes
      { s.perform (.replaceLive (chosen ++ job.rotation.notes ++ tail)) with
        rotator := .renamed job chosen (job.snapshot.length + tail.length) }
      chosen (job.rotation.notes ++ tail) := by
  have hrot := h.rotation
  unfold RotationInv at hrot
  rw [hpc] at hrot
  obtain ⟨hjob, hlive, hcore, hok, rest, hlater⟩ := hrot
  have hmade := h.live_made
  have hdrain : s.drain = [] := by unfold drain; rw [hpc]
  have hold : s.inodes job.ino = job.snapshot ++ tail ++ rest := by
    have := h.live_eq
    unfold liveLines at this
    rw [hlive, this, hcore, ← hlater, List.append_assoc]
  generalize ht : ({ s.perform (.replaceLive (chosen ++ job.rotation.notes ++ tail)) with
    rotator := .renamed job chosen (job.snapshot.length + tail.length) } : SealState D) = t
  have hinodes : t.inodes = Function.update s.inodes s.made (chosen ++ job.rotation.notes ++ tail) := by rw [← ht]; rfl
  have hino : t.inodes job.ino = s.inodes job.ino := by
    rw [hinodes, Function.update_of_ne (by omega)]
  have htdrain : t.drain = rest := by
    unfold drain
    rw [← ht]
    show ((Function.update s.inodes s.made _) job.ino).drop _ = rest
    rw [Function.update_of_ne (by omega), hold, ← List.length_append, List.drop_left]
  have hperm : (t.hist (job.rotation.notes ++ tail)).Perm (s.hist later ++ job.rotation.notes) := by
    unfold hist
    rw [htdrain, hdrain, ← hlater]
    have hdir : t.dir = s.dir := by rw [← ht]; rfl
    rw [hdir, List.append_nil, List.append_assoc, List.append_assoc]
    exact List.perm_append_comm.append_left (dirRows s.dir)
  have hpend : t.pendingOf = s.pendingOf := by
    funext c
    unfold pendingOf
    rw [hinodes]
    have happ : t.appenders = s.appenders := by rw [← ht]; rfl
    rw [happ]
    exact AppendPc.pending_new (h.calls c)
  refine ⟨?_, ?_, ?_, ?_, ?_, ?_, ?_, ?_, h.items_unmarked, ?_, ?_, ?_, ?_⟩
  · rw [← ht]; exact Nat.lt_succ_self _
  · have hl : t.live = s.made := by rw [← ht]; rfl
    unfold liveLines
    rw [hl, hinodes, Function.update_self, List.append_assoc]
  · intro c
    rw [← ht]
    exact (h.calls c).mono (Nat.le_succ _)
  · rw [← ht]; exact h.rows_mem
  · rw [← ht]; exact h.rows_nodup
  · rw [← ht]; exact h.rows_disjoint
  · rw [hpend]
    exact h.custody.note hperm hjob.notes_known hdisj h.pending_rows
  · rw [← ht]; exact hok
  · intro x hx
    rcases List.mem_append.mp (hperm.mem_iff.mp hx) with hx | hx
    · exact h.hist_unmarked x hx
    · exact hjob.notes_unmarked x hx
  · intro i hi hne hdying
    have hl : t.live = s.made := by rw [← ht]; rfl
    have hm : t.made = s.made + 1 := by rw [← ht]; rfl
    have hd : i ≠ job.ino := by
      intro heq
      apply hdying
      rw [← ht]
      exact heq.symm
    rw [hl] at hne
    rw [hinodes, Function.update_of_ne hne]
    refine h.sealed i (by omega) (by omega) ?_
    unfold Dying
    rw [hpc]
    exact not_false
  · rw [← ht]; exact h.named
  · have hr : t.rotator = .renamed job chosen (job.snapshot.length + tail.length) := by rw [← ht]
    have hl : t.live = s.made := by rw [← ht]; rfl
    have hm : t.made = s.made + 1 := by rw [← ht]; rfl
    unfold RotationInv
    rw [hr]
    refine ⟨hjob, by omega, by omega, rfl, ?_, ?_⟩
    · rw [hino, hold, List.length_append, List.length_append]
      omega
    · rw [hino, hlive]
      exact h.live_unmarked

omit [DecidableEq D] in
/-- The seal closes the replaced inode: what stands before it is drained, what follows is behind it. -/
theorem Inv.seal {job : RotateJob} {chosen : List Row} {drainFrom : ℕ} (h : Inv digest items notes s core later)
    (hpc : s.rotator = .renamed job chosen drainFrom) :
    Inv digest items notes { s.write job.ino [job.sealLine] with rotator := .sealed job chosen drainFrom } core later := by
  have hrot := h.rotation
  unfold RotationInv at hrot
  rw [hpc] at hrot
  obtain ⟨hjob, hne, hmade, hcore, hfrom, hun⟩ := hrot
  generalize ht : ({ s.write job.ino [job.sealLine] with rotator := .sealed job chosen drainFrom } : SealState D) = t
  have hinodes : t.inodes = Function.update s.inodes job.ino (s.inodes job.ino ++ [job.sealLine]) := by rw [← ht]; rfl
  have hr : t.rotator = .sealed job chosen drainFrom := by rw [← ht]
  have hl : t.live = s.live := by rw [← ht]; rfl
  have hsealed : ∀ x ∈ s.inodes job.ino, x ≠ job.sealLine := by
    intro x hx heq
    have h1 := hun x hx
    rw [heq, hjob.seal_marked] at h1
    cases h1
  have htdrain : t.drain = s.drain := by
    unfold drain
    rw [hr, hpc]
    dsimp only
    rw [hinodes, Function.update_self, List.drop_append_of_le_length hfrom, List.takeWhile_append_of_pos, List.takeWhile_cons]
    · simp
    · intro x hx
      exact decide_eq_true (hsealed x (List.mem_of_mem_drop hx))
  have hhist : t.hist later = s.hist later := by
    unfold hist
    rw [htdrain]
    rw [← ht]
    rfl
  have hpend : t.pendingOf = s.pendingOf := by
    funext c
    unfold pendingOf
    rw [hinodes]
    have happ : t.appenders = s.appenders := by rw [← ht]; rfl
    rw [happ]
    refine AppendPc.pending_write (h.calls c) fun x hx hrow => ?_
    obtain rfl := List.mem_singleton.mp hx
    have h1 := h.items_unmarked _ (h.rows_mem c _ hrow)
    rw [hjob.seal_marked] at h1
    cases h1
  refine ⟨?_, ?_, ?_, ?_, ?_, ?_, ?_, ?_, h.items_unmarked, ?_, ?_, ?_, ?_⟩
  · rw [← ht]; exact h.live_made
  · unfold liveLines
    rw [hl, hinodes, Function.update_of_ne (Ne.symm hne)]
    exact h.live_eq
  · rw [← ht]; exact h.calls
  · rw [← ht]; exact h.rows_mem
  · rw [← ht]; exact h.rows_nodup
  · rw [← ht]; exact h.rows_disjoint
  · rw [hhist, hpend]; exact h.custody
  · rw [← ht]; exact h.core_ok
  · rw [hhist]; exact h.hist_unmarked
  · intro i hi hne' _
    rw [hl] at hne'
    have hi' : i < s.made := by rw [← ht] at hi; exact hi
    rw [hinodes]
    by_cases heq : i = job.ino
    · subst heq
      rw [Function.update_self]
      exact ⟨job.sealLine, List.mem_append_right _ List.mem_cons_self, hjob.seal_marked⟩
    · rw [Function.update_of_ne heq]
      refine h.sealed i hi' hne' ?_
      unfold Dying
      rw [hpc]
      exact fun h' => heq h'.symm
  · rw [← ht]; exact h.named
  · unfold RotationInv
    rw [hr]
    refine ⟨by rw [hl]; exact hne, hcore, ?_⟩
    rw [hinodes, Function.update_self, List.drop_append_of_le_length hfrom]
    exact List.mem_append_right _ List.mem_cons_self

omit [DecidableEq D] in
/-- The drained rows reach the live file. -/
theorem Inv.drainRows {job : RotateJob} {chosen rows : List Row} (h : Inv digest items notes s core later)
    (hpc : s.rotator = .drained job chosen rows) :
    Inv digest items notes { s.write s.live rows with rotator := .appended job chosen } core (later ++ rows) := by
  have hrot := h.rotation
  unfold RotationInv at hrot
  rw [hpc] at hrot
  have hdrain : s.drain = rows := by unfold drain; rw [hpc]
  have hhist : s.hist later = dirRows s.dir ++ ((later ++ rows) ++ []) := by
    unfold hist
    rw [hdrain, List.append_nil]
  have hrows : ∀ x ∈ rows, marked x = false := by
    intro x hx
    refine h.hist_unmarked x ?_
    unfold hist
    rw [hdrain]
    exact List.mem_append_right _ (List.mem_append_right _ hx)
  refine ⟨h.live_made, ?_, h.calls, h.rows_mem, h.rows_nodup, h.rows_disjoint, ?_, h.core_ok, h.items_unmarked, ?_, ?_,
    h.named, hrot⟩
  · show (Function.update s.inodes s.live (s.inodes s.live ++ rows)) s.live = core ++ (later ++ rows)
    rw [Function.update_self, ← List.append_assoc, ← h.live_eq]
    rfl
  · have hc := h.custody
    rw [hhist] at hc
    refine hc.perm (List.Perm.refl _) fun c x => ?_
    have : (s.appenders c).pending (Function.update s.inodes s.live (s.inodes s.live ++ rows)) =
        (s.appenders c).pending s.inodes := AppendPc.pending_write_unmarked (h.calls c) h.live_unmarked hrows
    show x ∈ (s.appenders c).pending (Function.update s.inodes s.live (s.inodes s.live ++ rows)) ↔ _
    rw [this]
    exact Iff.rfl
  · have hu := h.hist_unmarked
    rw [hhist] at hu
    exact hu
  · intro i hi hne _
    have hne' : i ≠ s.live := hne
    obtain ⟨x, hx, hmark⟩ := h.sealed i hi hne' (by unfold Dying; rw [hpc]; exact not_false)
    refine ⟨x, ?_, hmark⟩
    show x ∈ (Function.update s.inodes s.live (s.inodes s.live ++ rows)) i
    rw [Function.update_of_ne hne']
    exact hx

/-- Every step of a rotation keeps the invariant. -/
theorem Inv.nextRotation (h : Inv digest items notes s core later) (hdisj : ∀ x ∈ notes, x ∉ items)
    (hstep : s.nextRotation digest stepOf tsMs = some t) : ∃ core' later', Inv digest items notes t core' later' := by
  have hrot := h.rotation
  unfold RotationInv at hrot
  cases hpc : s.rotator with
  | snapshotted job => exact ⟨_, h.archive hpc hstep⟩
  | idle =>
      unfold SealState.nextRotation at hstep
      rw [hpc] at hstep
      cases hstep
  | archived job chosen =>
      unfold SealState.nextRotation at hstep
      rw [hpc] at hstep hrot
      obtain rfl := Option.some.inj hstep
      obtain ⟨hjob, hlive, hcore, hok⟩ := hrot
      refine ⟨core, later, h.setRotator (by unfold drain; rw [hpc]) (by intro i; unfold Dying; rw [hpc]) ?_⟩
      refine ⟨hjob, hlive, hcore, hok, ?_⟩
      rw [h.live_eq, hcore, List.drop_left]
  | staged job chosen tail =>
      unfold SealState.nextRotation at hstep
      rw [hpc] at hstep hrot
      obtain rfl := Option.some.inj hstep
      -- nobody else renames over the path while the lock is held
      rw [if_pos hrot.2.1.symm]
      exact ⟨core, later, h.setRotator (by unfold drain; rw [hpc]) (by intro i; unfold Dying; rw [hpc]) hrot⟩
  | confirmed job chosen tail =>
      unfold SealState.nextRotation at hstep
      rw [hpc] at hstep
      obtain rfl := Option.some.inj hstep
      exact ⟨_, _, h.rename hdisj hpc⟩
  | renamed job chosen drainFrom =>
      unfold SealState.nextRotation at hstep
      rw [hpc] at hstep
      obtain rfl := Option.some.inj hstep
      exact ⟨_, _, h.seal hpc⟩
  | sealed job chosen drainFrom =>
      unfold SealState.nextRotation at hstep
      rw [hpc] at hstep hrot
      obtain rfl := Option.some.inj hstep
      exact ⟨core, later, h.setRotator (by unfold drain; rw [hpc]) (by intro i; unfold Dying; rw [hpc]) hrot.2.1⟩
  | drained job chosen rows =>
      unfold SealState.nextRotation at hstep
      rw [hpc] at hstep
      obtain rfl := Option.some.inj hstep
      exact ⟨_, _, h.drainRows hpc⟩
  | appended job chosen =>
      unfold SealState.nextRotation at hstep
      rw [hpc] at hstep hrot
      obtain rfl := Option.some.inj hstep
      have h' : Inv digest items notes s chosen later := hrot ▸ h
      have hdrain : s.drain = [] := by unfold drain; rw [hpc]
      have hhist : s.hist later = dirRows s.dir ++ (later ++ []) := by
        unfold hist
        rw [hdrain]
      refine ⟨chosen, later, h'.live_made, h'.live_eq, h'.calls, h'.rows_mem, h'.rows_nodup, h'.rows_disjoint, ?_,
        h'.core_ok, h'.items_unmarked, ?_, ?_, h'.named, .inr rfl⟩
      · have hc := h'.custody
        rw [hhist] at hc
        exact hc
      · have hu := h'.hist_unmarked
        rw [hhist] at hu
        exact hu
      · intro i hi hne _
        exact h'.sealed i hi hne (by unfold Dying; rw [hpc]; exact not_false)

omit [DecidableEq D] in
/-- A rotation takes the lock. -/
theorem Inv.nextRotate {r : Rotation} {sealLine : Row} (h : Inv digest items notes s core later)
    (hidle : s.rotator = .idle) (hdisj : ∀ x ∈ notes, x ∉ items)
    (hnotes : ∀ row ∈ r.deferralRow :: r.notes, row ∈ notes ∧ marked row = false) (hseal : marked sealLine = true)
    (hdated : Dated s.dir r.archive) : ∃ later', Inv digest items notes (s.nextRotate r sealLine) core later' := by
  unfold SealState.nextRotate
  dsimp only
  split
  next =>
    cases s.retained with
    | none => exact ⟨later, h⟩
    | some record =>
        show ∃ later', Inv digest items notes ((LedgerState.deferStaleRotation record _ r).foldl perform s) core later'
        unfold LedgerState.deferStaleRotation
        lift_lets
        intro key recent
        cases recent with
        | true => exact ⟨later, h⟩
        | false =>
            obtain ⟨hrow, hun⟩ := hnotes _ List.mem_cons_self
            have hn := h.note_live hdisj hrow hun
            exact ⟨_, hn.live_made, hn.live_eq, hn.calls, hn.rows_mem, hn.rows_nodup, hn.rows_disjoint, hn.custody,
              hn.core_ok, hn.items_unmarked, hn.hist_unmarked, hn.sealed, hn.named, hn.rotation⟩
  next =>
    have hrot := h.rotation
    unfold RotationInv at hrot
    rw [hidle] at hrot
    refine ⟨later, h.setRotator (by unfold drain; rw [hidle]) (by intro i; unfold Dying; rw [hidle]) ?_⟩
    have hjob : JobOk notes ⟨r, sealLine, s.live, s.liveLines⟩ :=
      ⟨fun row hrow => (hnotes row (List.mem_cons_of_mem _ hrow)).1,
        fun row hrow => (hnotes row (List.mem_cons_of_mem _ hrow)).2, hseal⟩
    exact ⟨hrot, hjob, rfl, hdated, later, [], h.live_eq, (List.append_nil later).symm⟩

/-! ### Runs -/

theorem handed_append (es : List SealEvent) (e : SealEvent) : handed (es ++ [e]) = handed es ++ handed [e] := by
  simp [handed]

theorem noted_append (es : List SealEvent) (e : SealEvent) : noted (es ++ [e]) = noted es ++ noted [e] := by
  simp [noted]

theorem distinct_init {es : List SealEvent} {e : SealEvent} (h : Distinct (es ++ [e])) : Distinct es := by
  have h1 := h.nodup
  have h2 := h.notes
  rw [handed_append] at h1 h2
  rw [noted_append] at h2
  refine ⟨List.Nodup.of_append_left h1, fun row hrow hin => ?_⟩
  exact h2 row (List.mem_append_left _ hrow) (List.mem_append_left _ hin)

/-- Every event of the run keeps the invariant. -/
theorem inv_step {es : List SealEvent} {e : SealEvent} (h : Inv digest (handed es) (noted es) s core later)
    (hd : Distinct (es ++ [e])) (hstep : Step digest stepOf tsMs s e t) (hun : Unmarked s e) :
    ∃ core' later', Inv digest (handed (es ++ [e])) (noted (es ++ [e])) t core' later' := by
  have hnodup := hd.nodup
  have hnotes := hd.notes
  rw [handed_append] at hnodup hnotes ⊢
  rw [noted_append] at hnotes ⊢
  unfold Step next at hstep
  cases e with
  | append a row flag =>
      simp only at hstep
      split at hstep
      next hidle =>
        obtain rfl := Option.some.inj hstep
        have hnew : handed [.append a row flag] = row :: flag.toList := by simp [handed]
        have hno : noted [.append a row flag] = [] := rfl
        rw [hnew] at hnodup hnotes ⊢
        rw [hno, List.append_nil] at hnotes ⊢
        refine ⟨core, later, h.call hidle ?_ (List.Nodup.of_append_right hnodup) hun⟩
        intro x hx
        refine ⟨fun hin => (List.disjoint_of_nodup_append hnodup) hin hx, fun hin => ?_⟩
        exact hnotes x hin (List.mem_append_right _ hx)
      next => cases hstep
  | advance a =>
      have hnew : handed [.advance a] = [] := rfl
      have hno : noted [.advance a] = [] := rfl
      rw [hnew, hno, List.append_nil, List.append_nil]
      exact ⟨core, h.nextAppend hstep⟩
  | rotate r nowIso host nonce =>
      have hnew : handed [.rotate r nowIso host nonce] = [] := rfl
      have hno : noted [.rotate r nowIso host nonce] = r.deferralRow :: r.notes := by simp [noted]
      rw [hnew, List.append_nil] at hnotes ⊢
      rw [hno] at hnotes ⊢
      simp only at hstep
      split at hstep
      next hidle =>
        obtain rfl := Option.some.inj hstep
        refine ⟨core, (h.more_notes _).nextRotate hidle hnotes ?_ (marked_sealRow _ _ _) hun.1⟩
        exact fun row hrow => ⟨List.mem_append_right _ hrow, hun.2 row hrow⟩
      next => cases hstep
  | advanceRotation =>
      have hnew : handed [.advanceRotation] = [] := rfl
      have hno : noted [.advanceRotation] = [] := rfl
      rw [hnew, hno, List.append_nil, List.append_nil] at hnotes ⊢
      exact h.nextRotation hnotes hstep

omit [DecidableEq D] in
theorem inv_start : Inv digest [] [] (start : SealState D) [] [] := by
  refine ⟨Nat.zero_lt_one, rfl, fun a => trivial, ?_, ?_, ?_, ?_, ?_, ?_, ?_, ?_, ?_, .inl ⟨rfl, rfl⟩⟩
  · intro a row hrow; cases hrow
  · intro a; exact List.nodup_nil
  · intro a b hab row hrow; cases hrow
  · refine ⟨?_, ?_, ?_, ?_⟩
    · intro x hx; cases hx
    · intro x hx; cases hx
    · intro a x hx; cases hx
    · intro x hx; cases hx
  · refine ⟨?_, ?_⟩
    · intro x hx; cases hx
    · intro x hx; cases hx
  · intro x hx; cases hx
  · intro x hx; cases hx
  · intro i hi hne
    have h0 : i = 0 := Nat.lt_one_iff.mp hi
    exact absurd h0 hne
  · refine ⟨List.nodup_nil, ?_, ?_⟩
    · intro a ha; cases ha
    · intro a ha; cases ha

theorem inv_run {es : List SealEvent} (hr : Run (Guarded (Step digest stepOf tsMs) Unmarked) (start : SealState D) es s)
    (hd : Distinct es) : ∃ core later, Inv digest (handed es) (noted es) s core later := by
  have hinv : Distinct es → ∃ core later, Inv digest (handed es) (noted es) s core later := by
    refine hr.invariant_trace
      (I := fun es s => Distinct es → ∃ core later, Inv digest (handed es) (noted es) s core later) ?_ ?_
    · intro es s e t ih hs hd
      obtain ⟨core, later, h⟩ := ih (distinct_init hd)
      exact inv_step h hd hs.1 hs.2
    · intro _
      exact ⟨[], [], inv_start⟩
  exact hinv hd

/-- **No row is lost or doubled.**  For any number of appenders and of rotations and for every
interleaving of their steps, once every call has returned each row handed over is a line of the
live file or of some archive, and at most once a line of the live file. -/
theorem append_once {es : List SealEvent}
    (hr : Run (Guarded (Step digest stepOf tsMs) Unmarked) (start : SealState D) es s) (hd : Distinct es)
    (hq : s.Quiet) :
    ∀ row ∈ handed es, (row ∈ s.liveLines ∨ Archived s.dir row) ∧ s.liveLines.count row ≤ 1 := by
  obtain ⟨core, later, h⟩ := inv_run hr hd
  intro row hrow
  have hdrain : s.drain = [] := by
    unfold drain
    rw [hq.2]
  have hone : (s.hist later).count row = 1 := by
    refine h.custody.count_log (fun a => ?_) hrow
    unfold pendingOf
    rw [hq.1 a]
    rfl
  unfold hist at hone
  rw [hdrain, List.append_nil, List.count_append] at hone
  have hcore := h.core_ok.once row hrow
  rw [h.live_eq, List.count_append, archived_iff]
  by_cases harch : row ∈ dirRows s.dir
  · -- an archived row is in the live file only as part of the core
    have hpos := List.count_pos_iff.mpr harch
    exact ⟨.inr harch, by omega⟩
  · rw [List.count_eq_zero.mpr harch] at hone
    have hnot : row ∉ core := fun hin => harch (h.core_ok.archived row hin)
    rw [List.count_eq_zero.mpr hnot]
    refine ⟨.inl (List.mem_append_right _ ?_), by omega⟩
    exact List.count_pos_iff.mp (by omega)

/-- The row `first` is appended, and the file opened for `second`. -/
def openEvents (first second : Row) : List SealEvent :=
  [.append 0 first none, .advance 0, .advance 0, .advance 0, .advance 0, .append 1 second none, .advance 1]

/-- The rotation goes on; `second` is written after the rename and before the seal. -/
def drainEvents : List SealEvent :=
  [.advanceRotation, .advanceRotation, .advanceRotation, .advanceRotation, .advance 1,
    .advanceRotation, .advanceRotation, .advanceRotation, .advanceRotation, .advance 1, .advance 1]

/-- The row `first` is appended; then `second` is written by an appender that opened the file before
a rotation renamed over it, after the rename and before the seal. -/
def raceEvents (first second : Row) : List SealEvent :=
  openEvents first second ++ .rotate (LedgerState.plainRotation 0) [] [] [] :: drainEvents

/-- The late row is drained and not appended again. -/
theorem late_row_drained : ∃ s : SealState (List Row),
    Run (Guarded (Step id (fun _ => none) (fun _ => none)) Unmarked) start (raceEvents ['a'] ['b']) s ∧ s.Quiet ∧
      s.liveLines = [['b']] ∧ (['b'] ∈ s.liveLines ∨ Archived s.dir ['b']) ∧ s.liveLines.count ['b'] ≤ 1 := by
  have hd : Dated [] (LedgerState.plainRotation 0).archive :=
    ⟨by decide, by decide, by simp [LedgerState.plainRotation]; decide, by simp⟩
  have hdistinct : Distinct (raceEvents ['a'] ['b']) := ⟨by decide, by decide⟩
  have hnotes : ∀ row ∈ (LedgerState.plainRotation 0).deferralRow :: (LedgerState.plainRotation 0).notes,
      marked row = false := by decide
  have ha : ∀ x ∈ ['a'] :: (none : Option Row).toList, marked x = false := by decide
  have hb : ∀ x ∈ ['b'] :: (none : Option Row).toList, marked x = false := by decide
  have hopens : ∀ e ∈ openEvents ['a'] ['b'], ∀ s : SealState (List Row), Unmarked s e := by
    simp only [openEvents, List.forall_mem_cons]
    exact ⟨fun _ => ha, fun _ => trivial, fun _ => trivial, fun _ => trivial, fun _ => trivial, fun _ => hb,
      fun _ => trivial, List.forall_mem_nil _⟩
  have hdrains : ∀ e ∈ drainEvents, ∀ s : SealState (List Row), Unmarked s e := by
    simp [drainEvents, Unmarked]
  obtain ⟨s, hrun, hquiet, hlive⟩ : ∃ s : SealState (List Row),
      Run (Guarded (Step id (fun _ => none) (fun _ => none)) Unmarked) start (raceEvents ['a'] ['b']) s ∧ s.Quiet ∧
        s.liveLines = [['b']] := by
    refine ⟨_, Run.append
      (Run.guarded (.cons rfl (.cons rfl (.cons rfl (.cons rfl (.cons rfl (.cons rfl (.cons rfl .nil))))))) hopens)
      (.cons ⟨rfl, hd, hnotes⟩ (Run.guarded
        (.cons rfl (.cons rfl (.cons rfl (.cons rfl (.cons rfl
          (.cons rfl (.cons rfl (.cons rfl (.cons rfl (.cons rfl (.cons rfl .nil))))))))))) hdrains)),
      ⟨fun a => ?_, rfl⟩, rfl⟩
    rcases a with _ | _ | a
    · rfl
    · decide +kernel
    · rfl
  exact ⟨s, hrun, hquiet, hlive, append_once hrun hdistinct hquiet ['b'] (by decide)⟩

/-- A row that carries the mark is taken for a seal: the late row is drained and appended again. -/
theorem marked_row_doubles : ∃ s : SealState (List Row),
    Run (Step id (fun _ => none) (fun _ => none)) start
        (raceEvents rotationSealMark ['b'] ++ [.advance 1, .advance 1, .advance 1]) s ∧
      Distinct (raceEvents rotationSealMark ['b'] ++ [.advance 1, .advance 1, .advance 1]) ∧ s.Quiet ∧
      s.liveLines.count ['b'] = 2 := by
  refine ⟨_, .cons rfl (.cons rfl (.cons rfl (.cons rfl (.cons rfl
    (.cons rfl (.cons rfl
    (.cons rfl (.cons rfl (.cons rfl (.cons rfl (.cons rfl
    (.cons rfl
    (.cons rfl (.cons rfl (.cons rfl (.cons rfl
    (.cons rfl (.cons rfl (.cons rfl (.cons rfl (.cons rfl .nil))))))))))))))))))))), ⟨by decide, by decide⟩,
    ⟨fun a => ?_, rfl⟩, rfl⟩
  rcases a with _ | _ | a
  · rfl
  · rfl
  · rfl

end SealState

end Remudero.Ledger
