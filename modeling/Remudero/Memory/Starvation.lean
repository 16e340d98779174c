import Remudero.Lib.Transition
import Remudero.Memory.AdmissionSafety

/-! # One starvation start at a time

The evaluations of `lib/host-memory-admission.ts` on one state root, each atomic under the admission
lock, with the releases of reservations and the restarts of the daemon, which lose the process's maps
and keep the held record.  `running` has the starvation starts whose occupancy is not released.

The record is a file that is written whole.  A reading that fails finds nothing, and is followed by a
write that creates the file and never replaces it; a write that fails leaves the file as it is.

The running start of a class is named by the process's map, and by the held record for a process that
was restarted.  But an evaluation in the restarted process stamps the record from its own empty map,
and so forgets it (`two_starved_starts`); an admission on another tier deletes the record; and a write
that fails never names the start.

`starved_one`: in a run in which no unreleased start is forgotten in one of these ways, and in which
an evaluation's reading of the ledger shows it, a class has one such start at most. -/

namespace Remudero.Memory

open Remudero.Lib

structure Host where
  maps : Maps
  /-- The file of the held record, where there is one. -/
  file : Option HeldStore
  /-- The starvation starts of a class whose occupancy is not released. -/
  running : WorkerClass → List Text

def Host.init : Host := ⟨Maps.empty, none, fun _ => []⟩

/-- What the file says. -/
def Host.held (s : Host) : HeldStore := s.file.getD fun _ => none

/-- What the calls of the file system answer in one evaluation. -/
structure Calls where
  /-- The file of the held record could be read. -/
  read : Bool
  /-- It could be written. -/
  written : Bool

/-- `readHeld` -/
def Host.readHeld (s : Host) (calls : Calls) : HeldStore := if calls.read then s.held else fun _ => none

/-- `writeHeld`: after a reading that failed, or found no file, the file is only created. -/
def Host.writeHeld (s : Host) (calls : Calls) : Option HeldStore → Option HeldStore
  | none => s.file
  | some store => if calls.written ∧ (calls.read = true ∨ s.file = none) then some store else s.file

inductive Event
  | evaluate (req : Request) (st : Start) (attempt : ℕ) (t : Turn) (inputs : Inputs) (calls : Calls)
  | release (id : Text)
  | restart
  /-- Requests come and go: waiters, streaks and the other rungs' starts change. -/
  | others

inductive Step (pol : Policy) (root : Text) : Host → Event → Host → Prop
  | done {s req st attempt t inputs calls adm m written} : req.root = root → t.maps = s.maps →
      t.held = s.readHeld calls → evaluate pol req st attempt t inputs = .done adm m written →
      Step pol root s (.evaluate req st attempt t inputs calls)
        ⟨m, s.writeHeld calls written, if adm = some .starvation then
          Function.update s.running req.workerClass
            (s.running req.workerClass ++ t.reservation.toList)
          else s.running⟩
  | threw {s req st attempt t inputs calls m} : req.root = root → t.maps = s.maps →
      t.held = s.readHeld calls → evaluate pol req st attempt t inputs = .threw m →
      Step pol root s (.evaluate req st attempt t inputs calls) { s with maps := m }
  | release {s id} : Step pol root s (.release id)
      { s with running := fun c => (s.running c).filter (· ≠ id) }
  | restart {s} : Step pol root s .restart { s with maps := Maps.empty }
  | others {s m} : m.starvationRunning = s.maps.starvationRunning →
      Step pol root s .others { s with maps := m }

/-- The held record of a class names the start. -/
def Records (held : HeldStore) (c : WorkerClass) (x : Text) : Prop :=
  (held c).bind HeldRecord.starvation = some x

/-- The ledger's reading shows the start, with its occupancy unreleased. -/
def Shows (inputs : Inputs) (x : Text) : Prop :=
  ∃ e, inputs.entries.find? (fun e => e.id = x) = some e ∧ e.occupancyReleased = false

/-- No step forgets an unreleased start.  An evaluation shows the starts of its class, and does not
run, but for a first uncertain reading, in a process that knows such a start from the record only; a
restart finds every unreleased start in the record. -/
def Remembers (root : Text) (s : Host) : Event → Prop
  | .evaluate req _ attempt t inputs _ =>
      ∀ x ∈ s.running req.workerClass, Shows inputs x ∧
        (admissionTier t.verdict = .uncertain ∧ attempt = 0 ∨ req.validation = true ∨
          s.maps.starvationRunning (root, req.workerClass) ≠ none ∨
          ¬ Records s.held req.workerClass x)
  | .restart => ∀ c, ∀ x ∈ s.running c, Records s.held c x
  | _ => True

/-- A class has one unreleased starvation start at most. -/
def OneStarved (s : Host) : Prop := ∀ c, (s.running c).length ≤ 1

/-! ### What an evaluation does to the map and to the record -/

variable {pol : Policy} {root : Text} {req : Request} {st : Start} {attempt : ℕ} {t : Turn}
  {inputs : Inputs} {calls : Calls} {v : Verdict} {m m' : Maps} {written : Option HeldStore}
  {adm : Option Admit} {s u : Host}

theorem ownTailRung_running (pol : Policy) (root : Text) (inputs : Inputs) (v : Verdict) (m : Maps) :
    (ownTailRung pol root inputs v m).2.starvationRunning = m.starvationRunning := by
  unfold ownTailRung
  dsimp only
  split
  · rfl
  split
  · rfl
  split
  · rfl
  split
  · rfl
  split
  · rfl
  split
  · rfl
  split <;> rfl

theorem starvationBlock_some {classKey : Text × WorkerClass} {ms : ℤ} {record : Option HeldRecord}
    {b : Block} (h : starvationBlock classKey inputs v ms record m = (some b, m')) : m' = m := by
  unfold starvationBlock at h
  dsimp only at h
  split at h
  · simp_all
  split at h
  · simp_all
  split at h <;> simp_all

/-- The starvation rung admits only when the start that the map names is not shown running. -/
theorem starvationBlock_none {classKey : Text × WorkerClass} {ms : ℤ} {record : Option HeldRecord}
    (h : starvationBlock classKey inputs v ms record m = (none, m')) :
    m'.starvationRunning = Function.update m.starvationRunning classKey none ∧
      ∀ x, m.starvationRunning classKey = some x → ¬ Shows inputs x := by
  unfold starvationBlock at h
  dsimp only at h
  split at h
  · simp at h
  split at h
  · simp at h
  split at h
  · simp at h
  · rename_i hentry
    simp only [Prod.mk.injEq, true_and] at h
    subst h
    refine ⟨rfl, ?_⟩
    rintro x hx ⟨e, hfind, hopen⟩
    apply hentry
    rw [hx, Option.some_or, Option.bind_some, hfind, Option.any_some, hopen, Bool.not_false]

/-- The map after the rungs: cleared by a starvation admission, else as it was. -/
theorem admitAs_running (pol : Policy) (req : Request) (st : Start) (attempt : ℕ) (t : Turn)
    (inputs : Inputs) :
    ((admitAs pol req st attempt t inputs).1 ≠ some .starvation ∧
        (admitAs pol req st attempt t inputs).2.starvationRunning = t.maps.starvationRunning) ∨
      ((admitAs pol req st attempt t inputs).1 = some .starvation ∧ req.validation = false ∧
        admissionTier t.verdict = .shortfall ∧
        (admitAs pol req st attempt t inputs).2.starvationRunning =
          Function.update t.maps.starvationRunning req.classKey none ∧
        ∀ x, t.maps.starvationRunning req.classKey = some x → ¬ Shows inputs x) := by
  unfold admitAs
  split
  · left
    refine ⟨?_, rfl⟩
    split <;> simp
  split
  · exact .inl ⟨by simp, rfl⟩
  · left
    refine ⟨?_, rfl⟩
    split <;> simp
  split
  · exact .inl ⟨by simp, rfl⟩
  split
  · exact .inl ⟨by simp, rfl⟩
  · rename_i hval _ htier _ _
    unfold lastRungs
    have hown := ownTailRung_running pol req.root inputs t.verdict t.maps
    split
    · rename_i m heq
      rw [heq] at hown
      exact .inl ⟨by simp, hown⟩
    · rename_i b m heq
      rw [heq] at hown
      split
      · rename_i m' hblock
        right
        obtain ⟨hrun, hshow⟩ := starvationBlock_none hblock
        refine ⟨rfl, by simpa using hval, htier, ?_, ?_⟩
        · rw [hrun, hown]
        · intro x hx
          exact hshow x (by rw [hown]; exact hx)
      · rename_i b' m' hblock
        left
        obtain rfl := starvationBlock_some hblock
        exact ⟨by simp, hown⟩

/-- Refreshing a class keeps the start that its record names. -/
theorem refreshed_records (req : Request) (t : Turn) (store : HeldStore) (c : WorkerClass) (x : Text) :
    Records (refreshed req t store) c x ↔ Records store c x := by
  unfold Records refreshed
  split
  · cases store c <;> rfl
  · rfl

theorem settle_ne_threw : settle req t adm m ≠ .threw m' := by
  intro h
  unfold settle at h
  dsimp only at h
  split at h
  · cases h
  split at h
  · split at h <;> cases h
  · cases h

/-- An evaluation touches the record of its own class only, and writes none when it only waits. -/
theorem settle_records (h : settle req t adm m = .done adm m' written) :
    m'.starvationRunning = m.starvationRunning ∧
      (∀ store, written = some store → ∀ c x, c ≠ req.workerClass → (Records store c x ↔ Records t.held c x)) ∧
      (req.validation = true ∨ admissionTier t.verdict ≠ .shortfall ∧ adm = none → written = none) := by
  have hother : ∀ (r : Option HeldRecord) store,
      some (refreshed req t (Function.update t.held req.workerClass r)) = some store →
      ∀ c x, c ≠ req.workerClass → (Records store c x ↔ Records t.held c x) := by
    rintro r store hstore c x hc
    rw [← Option.some.inj hstore, refreshed_records, Records, Function.update_of_ne hc, Records]
  have hnothing : ∀ store, (none : Option HeldStore) = some store →
      ∀ c x, c ≠ req.workerClass → (Records store c x ↔ Records t.held c x) := by
    intro store hstore
    cases hstore
  unfold settle at h
  dsimp only at h
  split at h
  · simp only [Evaluated.done.injEq, true_and] at h
    obtain ⟨rfl, rfl⟩ := h
    exact ⟨rfl, hnothing, fun _ => rfl⟩
  rename_i hval
  split at h
  · rename_i hwrite
    have hloud : ¬ (req.validation = true ∨ admissionTier t.verdict ≠ .shortfall ∧ adm = none) := by
      rintro (hyes | ⟨hno, hnone⟩)
      · exact hval hyes
      · simp [hno, hnone] at hwrite
    split at h
    · simp only [Evaluated.done.injEq, true_and] at h
      obtain ⟨rfl, rfl⟩ := h
      exact ⟨rfl, hother none, fun hquiet => absurd hquiet hloud⟩
    · simp only [Evaluated.done.injEq, true_and] at h
      obtain ⟨rfl, rfl⟩ := h
      exact ⟨rfl, hother _, fun hquiet => absurd hquiet hloud⟩
  · simp only [Evaluated.done.injEq, true_and] at h
    obtain ⟨rfl, rfl⟩ := h
    exact ⟨rfl, hnothing, fun _ => rfl⟩

/-- The evaluation decides a shortfall, of a request that is no validation. -/
def Decides (req : Request) (t : Turn) : Prop := req.validation = false ∧ admissionTier t.verdict = .shortfall

/-- An evaluation that throws has cleared the map at most for a start that is not shown running. -/
theorem evaluate_threw (h : evaluate pol req st attempt t inputs = .threw m) :
    m.starvationRunning = t.maps.starvationRunning ∨
      (Decides req t ∧ m.starvationRunning = Function.update t.maps.starvationRunning req.classKey none ∧
        ∀ x, t.maps.starvationRunning req.classKey = some x → ¬ Shows inputs x) := by
  have hrun := admitAs_running pol req st attempt t inputs
  have hm : (admitAs pol req st attempt t inputs).2 = m := by
    unfold evaluate at h
    split at h
    · exact absurd h settle_ne_threw
    · rename_i a m' hadm
      rw [hadm]
      split at h
      · exact Evaluated.threw.inj h
      split at h
      · exact Evaluated.threw.inj h
      · exact absurd h settle_ne_threw
  rw [hm] at hrun
  rcases hrun with ⟨-, hsame⟩ | ⟨-, hval, htier, hclear, hshow⟩
  · exact .inl hsame
  · exact .inr ⟨⟨hval, htier⟩, hclear, hshow⟩

/-- What an evaluation that ends does to the map: a starvation admission names its reservation. -/
theorem evaluate_running (h : evaluate pol req st attempt t inputs = .done adm m written) :
    (adm ≠ some .starvation ∧ m.starvationRunning = t.maps.starvationRunning) ∨
      (adm = some .starvation ∧ Decides req t ∧ ∃ id, t.reservation = some id ∧
        m.starvationRunning = Function.update t.maps.starvationRunning req.classKey (some id) ∧
        ∀ x, t.maps.starvationRunning req.classKey = some x → ¬ Shows inputs x) := by
  have hrun := admitAs_running pol req st attempt t inputs
  unfold evaluate at h
  split at h
  · rename_i m' hadm
    rw [hadm] at hrun
    obtain rfl := settle_done h
    rcases hrun with ⟨hne, hsame⟩ | ⟨hyes, -⟩
    · exact .inl ⟨hne, (settle_records h).1.trans hsame⟩
    · cases hyes
  · rename_i a m' hadm
    rw [hadm] at hrun
    split at h
    · cases h
    split at h
    · cases h
    · rename_i id hid
      obtain rfl := settle_done h
      rcases hrun with ⟨hne, hsame⟩ | ⟨hyes, hval, htier, hclear, hshow⟩
      · left
        have ha : a ≠ .starvation := fun ha => hne (by rw [ha])
        rw [if_neg ha] at h
        exact ⟨hne, (settle_records h).1.trans hsame⟩
      · right
        have ha : a = .starvation := by simpa using hyes
        rw [if_pos ha] at h
        refine ⟨hyes, ⟨hval, htier⟩, id, hid, ?_, hshow⟩
        have hclear' : m'.starvationRunning =
            Function.update t.maps.starvationRunning req.classKey none := hclear
        rw [(settle_records h).1]
        simp only [starve, hclear', Function.update_idem]

/-- A record that is written names the same starts of the other classes; a reading that only waits
writes none. -/
theorem evaluate_records (h : evaluate pol req st attempt t inputs = .done adm m written) :
    (∀ store, written = some store → ∀ c x, c ≠ req.workerClass → (Records store c x ↔ Records t.held c x)) ∧
      (admissionTier t.verdict = .uncertain ∧ attempt = 0 ∨ req.validation = true → written = none) := by
  have hwaits : admissionTier t.verdict = .uncertain → attempt = 0 → req.validation = false →
      (admitAs pol req st attempt t inputs).1 = none := by
    intro htier hzero hval
    simp [admitAs, hval, htier, hzero]
  unfold evaluate at h
  split at h
  · obtain rfl := settle_done h
    obtain ⟨-, hother, hquiet⟩ := settle_records h
    refine ⟨hother, ?_⟩
    rintro (⟨htier, -⟩ | hval)
    · exact hquiet (.inr ⟨by simp [htier], rfl⟩)
    · exact hquiet (.inl hval)
  · rename_i a m' hadm
    split at h
    · cases h
    split at h
    · cases h
    · obtain rfl := settle_done h
      obtain ⟨-, hother, hquiet⟩ := settle_records h
      refine ⟨hother, ?_⟩
      rintro (⟨htier, hzero⟩ | hval)
      · by_cases hval : req.validation = true
        · exact hquiet (.inl hval)
        · have hnone := hwaits htier hzero (by simpa using hval)
          rw [hadm] at hnone
          cases hnone
      · exact hquiet (.inl hval)

/-! ### The file of the record -/

/-- The file after an evaluation is the one before it, or the record written over what was read. -/
theorem writeHeld_cases (s : Host) (calls : Calls) (written : Option HeldStore) :
    s.writeHeld calls written = s.file ∨
      ∃ store, written = some store ∧ s.writeHeld calls written = some store ∧ s.readHeld calls = s.held := by
  cases written with
  | none => exact .inl rfl
  | some store =>
      by_cases hwrites : calls.written ∧ (calls.read = true ∨ s.file = none)
      · refine .inr ⟨store, rfl, if_pos hwrites, ?_⟩
        rcases hwrites.2 with hread | hnone
        · simp [Host.readHeld, hread]
        · simp [Host.readHeld, Host.held, hnone]
      · exact .inl (if_neg hwrites)

/-- The records of the other classes name the starts that they named. -/
theorem records_after (hheld : t.held = s.readHeld calls)
    (heval : evaluate pol req st attempt t inputs = .done adm m written) {c : WorkerClass} (hc : c ≠ req.workerClass)
    {x : Text} (h : Records s.held c x) : Records ((s.writeHeld calls written).getD fun _ => none) c x := by
  rcases writeHeld_cases s calls written with hsame | ⟨store, hstore, hfile, hread⟩
  · rw [hsame]
    exact h
  · rw [hfile]
    rw [← hread, ← hheld] at h
    exact ((evaluate_records heval).1 store hstore c x hc).mpr h

/-! ### The invariant -/

/-- The one unreleased start of a class is named by the map, or by the record alone. -/
def Tracks (root : Text) (s : Host) (c : WorkerClass) : Prop :=
  s.running c = [] ∨ ∃ x, s.running c = [x] ∧
    (s.maps.starvationRunning (root, c) = some x ∨
      s.maps.starvationRunning (root, c) = none ∧ Records s.held c x)

theorem Tracks.length_le {c : WorkerClass} (h : Tracks root s c) : (s.running c).length ≤ 1 := by
  rcases h with hnil | ⟨x, hx, -⟩
  · simp [hnil]
  · simp [hx]

/-- A class whose running starts, map and record are as before. -/
theorem Tracks.of_same {c : WorkerClass} (h : Tracks root s c) (hrun : u.running c = s.running c)
    (hmap : u.maps.starvationRunning (root, c) = s.maps.starvationRunning (root, c))
    (hrec : ∀ x, Records s.held c x → Records u.held c x) : Tracks root u c := by
  rcases h with hnil | ⟨x, hx, hnamed⟩
  · exact .inl (hrun.trans hnil)
  · refine .inr ⟨x, hrun.trans hx, ?_⟩
    rw [hmap]
    rcases hnamed with hsome | ⟨hnone, hx'⟩
    · exact .inl hsome
    · exact .inr ⟨hnone, hrec x hx'⟩

/-- An evaluation that admits by starvation, or clears the map, finds no start of its class running. -/
theorem Tracks.nil_of_unshown (h : Tracks root s req.workerClass)
    (hok : Remembers root s (.evaluate req st attempt t inputs calls)) (hdecides : Decides req t)
    (hnot : ∀ x, s.maps.starvationRunning (root, req.workerClass) = some x → ¬ Shows inputs x) :
    s.running req.workerClass = [] := by
  rcases h with hnil | ⟨x, hx, hnamed⟩
  · exact hnil
  · have hmem : x ∈ s.running req.workerClass := by simp [hx]
    obtain ⟨hshow, hcases⟩ := hok x hmem
    rcases hnamed with hmap | ⟨hnone, hrec⟩
    · exact absurd hshow (hnot x hmap)
    · -- the record alone names the start, so that the evaluation would only wait
      rcases hcases with ⟨htier, -⟩ | hval | hsome | hnorec
      · rw [hdecides.2] at htier
        cases htier
      · rw [hdecides.1] at hval
        cases hval
      · exact absurd hnone hsome
      · exact absurd hrec hnorec

theorem tracks_done (h : ∀ c, Tracks root s c) (hroot : req.root = root) (hmaps : t.maps = s.maps)
    (hheld : t.held = s.readHeld calls) (heval : evaluate pol req st attempt t inputs = .done adm m written)
    (hok : Remembers root s (.evaluate req st attempt t inputs calls)) (c : WorkerClass) :
    Tracks root
      ⟨m, s.writeHeld calls written, if adm = some .starvation then
        Function.update s.running req.workerClass (s.running req.workerClass ++ t.reservation.toList)
        else s.running⟩ c := by
  have hkey : req.classKey = (root, req.workerClass) := by rw [← hroot]; rfl
  rcases evaluate_running heval with ⟨hne, hsame⟩ | ⟨hyes, hdecides, id, hid, hnew, hshow⟩
  · rw [hmaps] at hsame
    rw [if_neg hne]
    by_cases hc : c = req.workerClass
    · rw [hc]
      rcases h req.workerClass with hnil | ⟨x, hx, hmap | ⟨hnone, hrec⟩⟩
      · exact .inl hnil
      · exact .inr ⟨x, hx, .inl (by rw [hsame]; exact hmap)⟩
      · -- the record alone names the start, so that the evaluation only waits
        have hmem : x ∈ s.running req.workerClass := by simp [hx]
        obtain ⟨-, hcases⟩ := hok x hmem
        have hquiet : written = none := by
          apply (evaluate_records heval).2
          rcases hcases with hwait | hval | hsome | hnot
          · exact .inl hwait
          · exact .inr hval
          · exact absurd hnone hsome
          · exact absurd hrec hnot
        refine .inr ⟨x, hx, .inr ⟨by rw [hsame]; exact hnone, ?_⟩⟩
        rw [hquiet]
        exact hrec
    · exact (h c).of_same rfl (by rw [hsame]) fun x hx => records_after hheld heval hc hx
  · rw [hmaps] at hnew hshow
    rw [hkey] at hshow
    rw [if_pos hyes]
    by_cases hc : c = req.workerClass
    · rw [hc]
      have hnil : s.running req.workerClass = [] := (h req.workerClass).nil_of_unshown hok hdecides hshow
      refine .inr ⟨id, by simp [hnil, hid], .inl ?_⟩
      rw [hnew, hkey, Function.update_self]
    · refine (h c).of_same (by simp [Function.update_of_ne hc]) ?_ fun x hx => records_after hheld heval hc hx
      have hne : (root, c) ≠ (root, req.workerClass) := fun heq => hc (Prod.mk.inj heq).2
      rw [hnew, hkey, Function.update_of_ne hne]

theorem tracks_threw (h : ∀ c, Tracks root s c) (hroot : req.root = root) (hmaps : t.maps = s.maps)
    (heval : evaluate pol req st attempt t inputs = .threw m)
    (hok : Remembers root s (.evaluate req st attempt t inputs calls)) (c : WorkerClass) :
    Tracks root { s with maps := m } c := by
  have hkey : req.classKey = (root, req.workerClass) := by rw [← hroot]; rfl
  rcases evaluate_threw heval with hsame | ⟨hdecides, hclear, hshow⟩
  · rw [hmaps] at hsame
    exact (h c).of_same rfl (by rw [hsame]) fun x hx => hx
  · rw [hmaps] at hclear hshow
    rw [hkey] at hshow
    by_cases hc : c = req.workerClass
    · rw [hc]
      exact .inl ((h req.workerClass).nil_of_unshown hok hdecides hshow)
    · refine (h c).of_same rfl ?_ fun x hx => hx
      have hne : (root, c) ≠ (root, req.workerClass) := fun heq => hc (Prod.mk.inj heq).2
      rw [hclear, hkey, Function.update_of_ne hne]

theorem tracks_release {id : Text} (h : ∀ c, Tracks root s c) (c : WorkerClass) :
    Tracks root { s with running := fun c => (s.running c).filter (· ≠ id) } c := by
  rcases h c with hnil | ⟨x, hx, hnamed⟩
  · exact .inl (by simp [hnil])
  · by_cases hid : x = id
    · exact .inl (by simp [hx, hid])
    · exact .inr ⟨x, by simp [hx, hid], hnamed⟩

theorem tracks_restart (h : ∀ c, Tracks root s c) (hok : Remembers root s .restart)
    (c : WorkerClass) : Tracks root { s with maps := Maps.empty } c := by
  rcases h c with hnil | ⟨x, hx, -⟩
  · exact .inl hnil
  · exact .inr ⟨x, hx, .inr ⟨rfl, hok c x (by simp [hx])⟩⟩

theorem tracks_step {e : Event} (h : ∀ c, Tracks root s c) (hstep : Step pol root s e u)
    (hok : Remembers root s e) : ∀ c, Tracks root u c := by
  cases hstep with
  | done hroot hmaps hheld heval => exact tracks_done h hroot hmaps hheld heval hok
  | threw hroot hmaps _ heval => exact tracks_threw h hroot hmaps heval hok
  | release => exact tracks_release h
  | restart => exact tracks_restart h hok
  | others hsame => exact fun c => (h c).of_same rfl (by rw [hsame]) fun x hx => hx

/-- In a run that forgets no unreleased start, a class has one of them at most. -/
theorem starved_one {es : List Event}
    (hrun : Run (Guarded (Step pol root) (Remembers root)) Host.init es s) : OneStarved s := by
  have hinv : ∀ c, Tracks root s c := by
    refine hrun.invariant (I := fun s => ∀ c, Tracks root s c) ?_ fun c => .inl rfl
    rintro s e u hs ⟨hstep, hok⟩
    exact tracks_step hs hstep hok
  exact fun c => (hinv c).length_le

/-! ### Reviews held by pressure stall, across a restart -/

/-- The maps of a process in which one review waits. -/
def oneWaiting (since : ℤ) : Maps := { Maps.empty with waiting := [⟨0, ['s'], .review, since⟩] }

/-- A turn on the host's own maps and record. -/
def stalledTurn (s : Host) (now : ℤ) (id : Text) : Turn where
  aborted := false
  now := now
  maps := s.maps
  held := s.held
  busy := false
  inputs := none
  verdict := stalled
  reservation := some id
  alerts := true
  complete := true
  marked := true

/-- A ledger that shows one reservation, with its occupancy unreleased. -/
def showing (id : Text) : Inputs := ⟨true, [⟨id, false, false, none⟩], false, none⟩

/-- The evaluation of the review, at `now`, with `shown` in the ledger. -/
def reviewEvent (s : Host) (now : ℤ) (shown id : Text) : Event :=
  .evaluate review (Start.of review 0 Maps.empty 0) 0 (stalledTurn s now id) (showing shown) ⟨true, true⟩

/-- The host after that evaluation. -/
def reviewed (s : Host) (now : ℤ) (shown id : Text) : Host :=
  match evaluate enforcing review (Start.of review 0 Maps.empty 0) 0 (stalledTurn s now id)
    (showing shown) with
  | .done adm m written =>
      ⟨m, s.writeHeld ⟨true, true⟩ written, if adm = some .starvation then
        Function.update s.running .review (s.running .review ++ [id]) else s.running⟩
  | .threw m => { s with maps := m }

theorem step_reviewed (s : Host) (now : ℤ) (shown id : Text) :
    Step enforcing ['s'] s (reviewEvent s now shown id) (reviewed s now shown id) := by
  unfold reviewed
  split
  · rename_i heval
    exact .done rfl rfl rfl heval
  · rename_i heval
    exact .threw rfl rfl rfl heval

/-- A review waits. -/
def waits (s : Host) (since : ℤ) : Host := { s with maps := oneWaiting since }

/-- It is admitted by starvation after an hour. -/
def firstStarved : Host := reviewed (waits Host.init 0) 3600000 ['w'] ['a']

/-- The daemon restarts, and another review asks while the first one runs. -/
def restarted : Host := waits { firstStarved with maps := Maps.empty } 3660000

/-- It is held, since the record names the first one. -/
def heldOnce : Host := reviewed restarted 3660000 ['a'] ['b']

/-- Its next turn. -/
def secondStarved : Host := reviewed heldOnce 3665000 ['a'] ['b']

/-- The second start is admitted by starvation while the first one is unreleased. -/
theorem two_starved_starts :
    Run (Step enforcing ['s']) Host.init
        [.others, reviewEvent (waits Host.init 0) 3600000 ['w'] ['a'], .restart, .others,
          reviewEvent restarted 3660000 ['a'] ['b'], reviewEvent heldOnce 3665000 ['a'] ['b']]
        secondStarved ∧
      heldOnce.running .review = [['a']] ∧ secondStarved.running .review = [['a'], ['b']] ∧
      ¬ OneStarved secondStarved := by
  have hrunning : secondStarved.running .review = [['a'], ['b']] := by decide +kernel
  refine ⟨?_, by decide +kernel, hrunning, ?_⟩
  · refine .cons (t := waits Host.init 0) (.others rfl) ?_
    refine .cons (step_reviewed _ _ _ _) ?_
    refine .cons .restart ?_
    refine .cons (t := restarted) (.others rfl) ?_
    refine .cons (step_reviewed _ _ _ _) ?_
    exact .single (step_reviewed _ _ _ _)
  · intro h
    have hle := h .review
    rw [hrunning] at hle
    simp at hle

/-- The record still names the first start after a restart. -/
theorem starved_one_restarted :
    firstStarved.running .review = [['a']] ∧ OneStarved restarted := by
  have hrunning : firstStarved.running .review = [['a']] := by decide +kernel
  refine ⟨hrunning, ?_⟩
  have hrun : Run (Guarded (Step enforcing ['s']) (Remembers ['s'])) Host.init
      [.others, reviewEvent (waits Host.init 0) 3600000 ['w'] ['a'], .restart, .others]
      restarted := by
    refine .cons (t := waits Host.init 0) ⟨.others rfl, trivial⟩ ?_
    refine .cons ⟨step_reviewed _ _ _ _, ?_⟩ ?_
    · intro x hx
      exact absurd hx List.not_mem_nil
    refine .cons (t := { firstStarved with maps := Maps.empty }) ⟨.restart, ?_⟩ ?_
    · intro c x hx
      cases c with
      | review =>
          have hx' : x ∈ firstStarved.running .review := hx
          rw [hrunning, List.mem_singleton] at hx'
          rw [hx']
          rfl
      | _ => exact absurd hx List.not_mem_nil
    exact .single ⟨.others rfl, trivial⟩
  exact starved_one hrun

end Remudero.Memory
