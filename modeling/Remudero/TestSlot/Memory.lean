import Remudero.Lib.Transition

/-! # Memory admission of test slots

`waitForSlot`, `memoryShort`, `othersThan` and `sized` of `lib/test-slot.ts` for legacy writers: any
number of acquirers in one slot directory, one headroom reading.  An acquirer takes the guard of a
slot, looks at the guard and then at the record of every other slot, judges the peaks it read
together with its own, creates its record and removes the guard.

* A run that names its bytes records them.  A run that names a per-file peak reads the other slots a
  second time, and sizes its concurrency by what that reading leaves (`sized`).
* The first reading refuses a slot when another slot's guard is pending.  The second one counts
  nothing for such a slot, whatever its record names (`Step.pendingSized`).
* A sized run names no more than what its last reading left, or than the one file it was admitted
  with (`Named.ownPeak_le`). -/

namespace Remudero.TestSlot.Memory

open Remudero.Lib Finset

/-! ### Sizing -/

/-- The peak an acquirer names. -/
inductive Named
  /-- `memoryBytes`, the run's own estimate. -/
  | bytes (m : ℕ)
  /-- One peak for every file. -/
  | perFile (p : ℕ)
  /-- The peaks of the selected files, of which there is one at least. -/
  | files (p : ℕ) (ps : List ℕ)

/-- Largest first. -/
def descending (l : List ℕ) : List ℕ := l.mergeSort fun a b => decide (b ≤ a)

/-- The loop of `memoryTestConcurrency` over the sorted peaks; `none` is `undefined`. -/
def fill (headroom : ℕ) : ℕ → ℕ → List ℕ → Option ℕ
  | _, count, [] => some (max 1 count)
  | bytes, count, peak :: rest =>
      if peak = 0 then none
      else if headroom < bytes + peak then some (max 1 count)
      else fill headroom (bytes + peak) (count + 1) rest

/-- `memoryTestConcurrency` for one peak.  A headroom below zero is one that holds nothing. -/
def memoryTestConcurrency (headroom p : ℕ) : Option ℕ :=
  if 0 < p then some (max 1 (headroom / p)) else none

/-- `memoryTestConcurrency` for the peaks of the files. -/
def memoryTestConcurrencyFiles (headroom : ℕ) (peaks : List ℕ) : Option ℕ :=
  fill headroom 0 0 (descending peaks)

/-- What `memoryShort` asks room for: one file of a sized run. -/
def Named.own : Named → ℕ
  | bytes m => m
  | perFile p => p
  | files p ps => (descending (p :: ps)).headD 0

/-- `sized` and `ownPeak`: the peak that the record of a run names which was granted `cpu` workers
and whose last reading left `headroom`. -/
def Named.ownPeak (cpu headroom : ℕ) : Named → ℕ
  | bytes m => m
  | perFile p => min cpu ((memoryTestConcurrency headroom p).getD cpu) * p
  | files p ps =>
      let peaks := descending (p :: ps)
      let concurrency :=
        min (min cpu peaks.length) ((memoryTestConcurrencyFiles headroom peaks).getD cpu)
      (peaks.take concurrency).sum

theorem descending_pairwise (l : List ℕ) : (descending l).Pairwise fun a b => b ≤ a := by
  have htrans : ∀ a b c : ℕ, decide (b ≤ a) = true → decide (c ≤ b) = true →
      decide (c ≤ a) = true := by
    simp only [decide_eq_true_eq]
    omega
  have htotal : ∀ a b : ℕ, (decide (b ≤ a) || decide (a ≤ b)) = true := by
    simp only [Bool.or_eq_true, decide_eq_true_eq]
    omega
  simpa [descending] using List.pairwise_mergeSort htrans htotal l

theorem descending_descending (l : List ℕ) : descending (descending l) = descending l := by
  refine List.mergeSort_of_pairwise ?_
  simpa using descending_pairwise l

/-- What was counted fits. -/
theorem fill_some {headroom : ℕ} {l : List ℕ} {bytes count m : ℕ} (hb : bytes ≤ headroom)
    (h : fill headroom bytes count l = some m) :
    ∃ k, m = max 1 (count + k) ∧ bytes + (l.take k).sum ≤ headroom := by
  induction l generalizing bytes count with
  | nil =>
      simp only [fill, Option.some.injEq] at h
      exact ⟨0, by simpa using h.symm, by simpa using hb⟩
  | cons peak rest ih =>
      simp only [fill] at h
      split at h
      · cases h
      split at h
      · simp only [Option.some.injEq] at h
        exact ⟨0, by simpa using h.symm, by simpa using hb⟩
      · obtain ⟨k, hm, hsum⟩ := ih (by omega) h
        refine ⟨k + 1, by rw [hm]; congr 1; omega, ?_⟩
        rw [List.take_succ_cons, List.sum_cons]
        omega

/-- The loop gives up at a peak of zero, when everything before fits and nothing follows. -/
theorem fill_none {headroom : ℕ} {l : List ℕ} {bytes count : ℕ} (hb : bytes ≤ headroom)
    (hl : l.Pairwise fun a b => b ≤ a) (h : fill headroom bytes count l = none) :
    bytes + l.sum ≤ headroom := by
  induction l generalizing bytes count with
  | nil => simp [fill] at h
  | cons peak rest ih =>
      rw [List.pairwise_cons] at hl
      simp only [fill] at h
      split at h
      · rename_i hzero
        have hrest : rest.sum = 0 := by
          rw [List.sum_eq_zero_iff]
          intro x hx
          have hle := hl.1 x hx
          omega
        rw [List.sum_cons]
        omega
      split at h
      · cases h
      · have hsum := ih (by omega) hl.2 h
        rw [List.sum_cons]
        omega

theorem sum_take_mono (l : List ℕ) {j k : ℕ} (h : j ≤ k) : (l.take j).sum ≤ (l.take k).sum := by
  exact ((List.take_sublist_take_left h).sum_le_sum fun _ _ => Nat.zero_le _)

theorem sum_take_one (l : List ℕ) : (l.take 1).sum = l.headD 0 := by
  cases l <;> simp

/-- A sized run names no more than what was left, or than the one file it was admitted with. -/
theorem Named.ownPeak_le (nm : Named) (cpu headroom : ℕ) :
    nm.ownPeak cpu headroom ≤ headroom ∨ nm.ownPeak cpu headroom ≤ nm.own := by
  cases nm with
  | bytes m => exact .inr le_rfl
  | perFile p =>
      simp only [ownPeak, own, memoryTestConcurrency]
      split
      · by_cases hfit : 1 ≤ headroom / p
        · left
          calc min cpu (max 1 (headroom / p)) * p ≤ max 1 (headroom / p) * p :=
                Nat.mul_le_mul_right p (min_le_right _ _)
            _ = headroom / p * p := by rw [max_eq_right hfit]
            _ ≤ headroom := Nat.div_mul_le_self headroom p
        · right
          have hone : max 1 (headroom / p) = 1 := by omega
          calc min cpu (max 1 (headroom / p)) * p ≤ max 1 (headroom / p) * p :=
                Nat.mul_le_mul_right p (min_le_right _ _)
            _ = p := by rw [hone, Nat.one_mul]
      · right
        have hp : p = 0 := by omega
        simp [hp]
  | files p ps =>
      simp only [ownPeak, own, memoryTestConcurrencyFiles, descending_descending]
      set peaks := descending (p :: ps)
      cases hfill : fill headroom 0 0 peaks with
      | none =>
          left
          have hall : 0 + peaks.sum ≤ headroom :=
            fill_none (Nat.zero_le _) (descending_pairwise _) hfill
          have htake := sum_take_mono peaks (min_le_of_left_le (min_le_right cpu peaks.length) :
            min (min cpu peaks.length) cpu ≤ peaks.length)
          rw [List.take_length] at htake
          simp only [Option.getD_none]
          omega
      | some m =>
          obtain ⟨k, hm, hsum⟩ := fill_some (Nat.zero_le _) hfill
          have hle : min (min cpu peaks.length) m ≤ max 1 k := by omega
          have htake := sum_take_mono peaks hle
          simp only [Option.getD_some]
          by_cases hk : 1 ≤ k
          · left
            rw [max_eq_right hk] at htake
            omega
          · right
            rw [max_eq_left (by omega), sum_take_one] at htake
            exact htake

/-! ### The protocol -/

/-- The reading that checks the slot, and the one that sizes the run. -/
inductive Phase
  | check
  | size
deriving DecidableEq

/-- Where an acquirer is; `slot` is the slot whose guard it took. -/
inductive Pc
  | idle
  /-- About to look at the guard of slot `next`, having read the peaks `seen`. -/
  | look (phase : Phase) (slot next : ℕ) (seen : List ℕ)
  /-- The guard of slot `next` is absent; about to read its record. -/
  | read (phase : Phase) (slot next : ℕ) (seen : List ℕ)
  | ready (slot peak : ℕ)
  /-- Refused; about to remove the guard. -/
  | leave (slot : ℕ)
  /-- The record is there; about to remove the guard. -/
  | made (slot : ℕ)
  | hold (slot : ℕ)
  /-- A release that took the guard. -/
  | retire (slot : ℕ)
  | retired (slot : ℕ)
  /-- A refresh, which writes the same peak. -/
  | refresh (slot : ℕ)
deriving DecidableEq

inductive Act
  | start (slot : ℕ)
  | look
  | read
  | judge
  /-- Sizing, with the workers that the CPU grants. -/
  | size (cpu : ℕ)
  | create
  /-- A refusal for another reason than memory: CPU, a failing call, the queue. -/
  | quit
  | remove
  | release
  | unlink
  | refresh
  /-- A release that finds the guard taken gives up and leaves the record. -/
  | abandon
deriving DecidableEq

variable {A : Type*} [DecidableEq A]

structure Slots (A : Type*) where
  guard : ℕ → Option A
  /-- The peak that the slot's record names. -/
  record : ℕ → Option ℕ
  pc : A → Pc

namespace Slots

def init : Slots A := ⟨fun _ => none, fun _ => none, fun _ => .idle⟩

def goto (s : Slots A) (a : A) (c : Pc) : Slots A := { s with pc := Function.update s.pc a c }

def setGuard (s : Slots A) (i : ℕ) (g : Option A) : Slots A :=
  { s with guard := Function.update s.guard i g }

def setRecord (s : Slots A) (i : ℕ) (r : Option ℕ) : Slots A :=
  { s with record := Function.update s.record i r }

end Slots

/-- `memoryShort` over the peaks read. -/
def memoryShort (headroom own : ℕ) (seen : List ℕ) : Prop := seen ≠ [] ∧ headroom < seen.sum + own

instance (headroom own : ℕ) (seen : List ℕ) : Decidable (memoryShort headroom own seen) :=
  inferInstanceAs (Decidable (_ ∧ _))

/-- The steps of acquirers of `n` slots, with the peaks they name.  An acquirer tries the slots in
some order; here the next one may be any. -/
inductive Step (n headroom : ℕ) (named : A → Named) : Slots A → A × Act → Slots A → Prop
  | start {s a i} : i < n → s.pc a = .idle → s.guard i = none →
      Step n headroom named s (a, .start i) ((s.setGuard i (some a)).goto a (.look .check i 0 []))
  | startBusy {s a i} : s.pc a = .idle → s.guard i ≠ none → Step n headroom named s (a, .start i) s
  | own {s a ph i seen} : s.pc a = .look ph i i seen →
      Step n headroom named s (a, .look) (s.goto a (.look ph i (i + 1) seen))
  | clear {s a ph i j seen} : s.pc a = .look ph i j seen → j < n → j ≠ i → s.guard j = none →
      Step n headroom named s (a, .look) (s.goto a (.read ph i j seen))
  -- the first reading would go on, and refuse the slot in the end
  | pending {s a i j seen} : s.pc a = .look .check i j seen → j < n → j ≠ i → s.guard j ≠ none →
      Step n headroom named s (a, .look) (s.goto a (.leave i))
  -- `namedPeaks` counts nothing for a peer that is unknown
  | pendingSized {s a i j seen} : s.pc a = .look .size i j seen → j < n → j ≠ i →
      s.guard j ≠ none → Step n headroom named s (a, .look) (s.goto a (.look .size i (j + 1) seen))
  | read {s a ph i j seen} : s.pc a = .read ph i j seen →
      Step n headroom named s (a, .read)
        (s.goto a (.look ph i (j + 1) (seen ++ (s.record j).toList)))
  | short {s a i seen} : s.pc a = .look .check i n seen →
      memoryShort headroom (named a).own seen →
      Step n headroom named s (a, .judge) (s.goto a (.leave i))
  | bytes {s a i seen m} : s.pc a = .look .check i n seen →
      ¬ memoryShort headroom (named a).own seen → named a = .bytes m →
      Step n headroom named s (a, .judge) (s.goto a (.ready i m))
  | sizing {s a i seen} : s.pc a = .look .check i n seen →
      ¬ memoryShort headroom (named a).own seen → (∀ m, named a ≠ .bytes m) →
      Step n headroom named s (a, .judge) (s.goto a (.look .size i 0 []))
  | size {s a i seen cpu} : s.pc a = .look .size i n seen →
      Step n headroom named s (a, .size cpu)
        (s.goto a (.ready i ((named a).ownPeak cpu (headroom - seen.sum))))
  | create {s a i peak} : s.pc a = .ready i peak → s.record i = none →
      Step n headroom named s (a, .create) ((s.setRecord i (some peak)).goto a (.made i))
  | createExists {s a i peak} : s.pc a = .ready i peak → s.record i ≠ none →
      Step n headroom named s (a, .create) (s.goto a (.leave i))
  | quitLook {s a ph i j seen} : s.pc a = .look ph i j seen →
      Step n headroom named s (a, .quit) (s.goto a (.leave i))
  | quitReady {s a i peak} : s.pc a = .ready i peak →
      Step n headroom named s (a, .quit) (s.goto a (.leave i))
  | remove {s a i} : s.pc a = .leave i ∨ s.pc a = .retired i →
      Step n headroom named s (a, .remove) ((s.setGuard i none).goto a .idle)
  | removeHeld {s a i} : s.pc a = .made i ∨ s.pc a = .refresh i →
      Step n headroom named s (a, .remove) ((s.setGuard i none).goto a (.hold i))
  | release {s a i} : s.pc a = .hold i → s.guard i = none →
      Step n headroom named s (a, .release) ((s.setGuard i (some a)).goto a (.retire i))
  | unlink {s a i} : s.pc a = .retire i →
      Step n headroom named s (a, .unlink) ((s.setRecord i none).goto a (.retired i))
  | refresh {s a i} : s.pc a = .hold i → s.guard i = none →
      Step n headroom named s (a, .refresh) ((s.setGuard i (some a)).goto a (.refresh i))
  | abandon {s a i} : s.pc a = .hold i → s.guard i ≠ none →
      Step n headroom named s (a, .abandon) (s.goto a .idle)

namespace Pc

/-- The slot an acquirer is at. -/
def slot : Pc → Option ℕ
  | idle => none
  | look _ i _ _ => some i
  | read _ i _ _ => some i
  | ready i _ => some i
  | leave i => some i
  | made i => some i
  | hold i => some i
  | retire i => some i
  | retired i => some i
  | refresh i => some i

/-- The slot whose guard an acquirer has. -/
def guarded : Pc → Option ℕ
  | hold _ => none
  | c => c.slot

/-- The slot of an acquirer that may still create a record, and the bound below which it has found
the guards of the other slots absent. -/
def passed (n : ℕ) : Pc → Option (ℕ × ℕ)
  | look .check i j _ => some (i, j)
  | read .check i j _ => some (i, j + 1)
  | look .size i _ _ => some (i, n)
  | read .size i _ _ => some (i, n)
  | ready i _ => some (i, n)
  | _ => none

theorem slot_of_guarded {c : Pc} {i : ℕ} (h : c.guarded = some i) : c.slot = some i := by
  cases c <;> simp_all [guarded, slot]

theorem guarded_of_passed {n i k : ℕ} {c : Pc} (h : c.passed n = some (i, k)) :
    c.guarded = some i := by
  cases c with
  | look ph i j seen => cases ph <;> simp_all [passed, guarded, slot]
  | read ph i j seen => cases ph <;> simp_all [passed, guarded, slot]
  | ready i peak => simp_all [passed, guarded, slot]
  | _ => simp [passed] at h

end Pc

/-- Where the reading that sizes looks at a pending guard, the slot has no record. -/
def CountsPending (s : Slots A) (e : A × Act) : Prop :=
  e.2 = .look → ∀ i j seen, s.pc e.1 = .look .size i j seen → j ≠ i → s.guard j ≠ none →
    s.record j = none

/-- The records fit the headroom where there are two or more of them. -/
def Fits (n headroom : ℕ) (s : Slots A) : Prop :=
  (∃ i j, i < n ∧ j < n ∧ i ≠ j ∧ s.record i ≠ none ∧ s.record j ≠ none) →
    ∑ i ∈ range n, (s.record i).getD 0 ≤ headroom

end Remudero.TestSlot.Memory
