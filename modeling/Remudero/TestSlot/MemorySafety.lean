import Remudero.TestSlot.Memory

/-! # The records of the test slots fit the headroom

`records_fit`: in a run in which no sizing looks at a pending guard in front of a record, the peaks
of two or more records sum up to no more than the headroom.

Each acquirer holds only the guard of its own slot.  What makes it work is that of two acquirers one
has not yet looked at the other's slot (`Inv.cross`): a record appears only in a slot that no
acquirer has looked at, so that what an acquirer has read stays an upper bound (`Knows.of_fewer`).

A sizing that does pass such a guard is made as if the holder were not there
(`sized_past_pending_guard`). -/

namespace Remudero.TestSlot.Memory

open Remudero.Lib Finset

variable {A : Type*} [DecidableEq A]

/-! ### What a reading covers -/

section records

variable {r r' : ℕ → Option ℕ} {i j k n headroom peak : ℕ} {seen : List ℕ}

/-- What the slots below `k` other than `i` name. -/
def others (r : ℕ → Option ℕ) (i k : ℕ) : ℕ :=
  ∑ j ∈ range k, if j = i then 0 else (r j).getD 0

/-- The peaks read cover the slots below `k` other than `i`. -/
structure Covers (r : ℕ → Option ℕ) (i k : ℕ) (seen : List ℕ) : Prop where
  sum : others r i k ≤ seen.sum
  none_of_nil : seen = [] → ∀ j, j < k → j ≠ i → r j = none

/-- A record of `peak` in slot `i` would fit beside the others. -/
def Room (n headroom : ℕ) (r : ℕ → Option ℕ) (i peak : ℕ) : Prop :=
  (∃ j, j < n ∧ j ≠ i ∧ r j ≠ none) → peak + others r i n ≤ headroom

/-- Below `k`, `r'` has no record that `r` does not have. -/
def Fewer (i k : ℕ) (r r' : ℕ → Option ℕ) : Prop :=
  ∀ j, j < k → j ≠ i → r' j = none ∨ r' j = r j

theorem others_succ (h : j ≠ i) : others r i (j + 1) = others r i j + (r j).getD 0 := by
  rw [others, sum_range_succ, if_neg h, others]

theorem others_succ_self (r : ℕ → Option ℕ) (i : ℕ) : others r i (i + 1) = others r i i := by
  rw [others, sum_range_succ, if_pos rfl, others, Nat.add_zero]

theorem sum_eq_add_others (h : i < n) :
    ∑ j ∈ range n, (r j).getD 0 = (r i).getD 0 + others r i n := by
  have hsplit : ∀ j ∈ range n,
      (r j).getD 0 = (if j = i then (r i).getD 0 else 0) + if j = i then 0 else (r j).getD 0 := by
    intro j _
    by_cases hj : j = i <;> simp [hj]
  rw [sum_congr rfl hsplit, sum_add_distrib, sum_ite_eq' (range n) i, if_pos (mem_range.mpr h)]
  rfl

theorem Fewer.others_le (h : Fewer i k r r') : others r' i k ≤ others r i k := by
  refine sum_le_sum ?_
  intro j hj
  split
  · exact le_rfl
  · rename_i hne
    rcases h j (mem_range.mp hj) hne with hnone | hsame
    · simp [hnone]
    · rw [hsame]

theorem Fewer.mono (h : Fewer i k r r') (hj : j ≤ k) : Fewer i j r r' :=
  fun l hl hne => h l (by omega) hne

theorem Fewer.some_before (h : Fewer i k r r') (hj : j < k) (hne : j ≠ i) (hsome : r' j ≠ none) :
    r j ≠ none := by
  rcases h j hj hne with hnone | hsame
  · exact absurd hnone hsome
  · rwa [hsame] at hsome

theorem Covers.of_fewer (hc : Covers r i k seen) (h : Fewer i k r r') : Covers r' i k seen := by
  refine ⟨h.others_le.trans hc.sum, ?_⟩
  intro hnil j hj hne
  by_contra hsome
  exact h.some_before hj hne hsome (hc.none_of_nil hnil j hj hne)

theorem Room.of_fewer (hr : Room n headroom r i peak) (h : Fewer i n r r') :
    Room n headroom r' i peak := by
  rintro ⟨j, hj, hne, hsome⟩
  have hroom := hr ⟨j, hj, hne, h.some_before hj hne hsome⟩
  have hle := h.others_le
  omega

/-- Reading one more record. -/
theorem Covers.read (hc : Covers r i j seen) (hne : j ≠ i) :
    Covers r i (j + 1) (seen ++ (r j).toList) := by
  refine ⟨?_, ?_⟩
  · have hsum := hc.sum
    rw [others_succ hne, List.sum_append]
    cases r j <;> simp <;> omega
  · intro hnil l hl hli
    rw [List.append_eq_nil_iff] at hnil
    by_cases hlj : l = j
    · subst hlj
      simpa using hnil.2
    · exact hc.none_of_nil hnil.1 l (by omega) hli

theorem Covers.own (hc : Covers r i i seen) : Covers r i (i + 1) seen := by
  refine ⟨by rw [others_succ_self]; exact hc.sum, ?_⟩
  intro hnil l hl hli
  exact hc.none_of_nil hnil l (by omega) hli

/-- What `memoryShort` lets pass fits. -/
theorem Covers.room (hc : Covers r i n seen) (h : ¬ memoryShort headroom peak seen) :
    Room n headroom r i peak := by
  rintro ⟨j, hj, hne, hsome⟩
  have hseen : seen ≠ [] := fun hnil => hsome (hc.none_of_nil hnil j hj hne)
  have hfit : ¬ headroom < seen.sum + peak := fun hlt => h ⟨hseen, hlt⟩
  have hsum := hc.sum
  omega

/-- A run that was admitted with one file and sized by what was left fits. -/
theorem Room.sized {nm : Named} (hr : Room n headroom r i nm.own) (hsum : others r i n ≤ seen.sum)
    (cpu : ℕ) : Room n headroom r i (nm.ownPeak cpu (headroom - seen.sum)) := by
  intro hother
  have hroom := hr hother
  rcases nm.ownPeak_le cpu (headroom - seen.sum) with hle | hle <;> omega

end records

/-! ### The invariant -/

/-- What an acquirer that names `own` knows of the records, by where it is. -/
def Knows (n headroom own : ℕ) (r : ℕ → Option ℕ) : Pc → Prop
  | .look .check i j seen => Covers r i j seen
  | .read .check i j seen => j ≠ i ∧ Covers r i j seen
  | .look .size i j seen => j ≤ n ∧ others r i j ≤ seen.sum ∧ Room n headroom r i own
  | .read .size i j seen => j ≠ i ∧ j < n ∧ others r i j ≤ seen.sum ∧ Room n headroom r i own
  | .ready i peak => Room n headroom r i peak
  | _ => True

/-- Records that vanish, or appear where an acquirer has not looked, take nothing from what it
knows. -/
theorem Knows.of_fewer {n headroom own : ℕ} {r r' : ℕ → Option ℕ} {c : Pc}
    (hk : Knows n headroom own r c) (h : ∀ i k, c.passed n = some (i, k) → Fewer i k r r') :
    Knows n headroom own r' c := by
  cases c with
  | look ph i j seen =>
      cases ph with
      | check => exact Covers.of_fewer hk (h i j rfl)
      | size =>
          obtain ⟨hj, hsum, hroom⟩ := hk
          have hf := h i n rfl
          exact ⟨hj, (hf.mono hj).others_le.trans hsum, hroom.of_fewer hf⟩
  | read ph i j seen =>
      cases ph with
      | check =>
          obtain ⟨hne, hc⟩ := hk
          exact ⟨hne, hc.of_fewer ((h i (j + 1) rfl).mono (by omega))⟩
      | size =>
          obtain ⟨hne, hj, hsum, hroom⟩ := hk
          have hf := h i n rfl
          exact ⟨hne, hj, (hf.mono (by omega)).others_le.trans hsum, hroom.of_fewer hf⟩
  | ready i peak => exact Room.of_fewer hk (h i n rfl)
  | _ => trivial

structure Inv (n headroom : ℕ) (named : A → Named) (s : Slots A) : Prop where
  slot_lt : ∀ a i, (s.pc a).slot = some i → i < n
  guard : ∀ a i, (s.pc a).guarded = some i → s.guard i = some a
  /-- Of two acquirers, one has not yet looked at the other's slot. -/
  cross : ∀ a b i j k l, a ≠ b → (s.pc a).passed n = some (i, k) →
    (s.pc b).passed n = some (j, l) → ¬ (j < k ∧ i < l)
  knows : ∀ a, Knows n headroom (named a).own s.record (s.pc a)
  fits : Fits n headroom s

variable {n headroom : ℕ} {named : A → Named} {s t : Slots A} {a : A} {i : ℕ} {c : Pc}

omit [DecidableEq A] in
theorem inv_init : Inv n headroom named (Slots.init : Slots A) := by
  constructor <;> simp [Slots.init, Pc.slot, Pc.guarded, Pc.passed, Knows, Fits]

/-- What one acquirer's move has to show: for itself, and that it keeps what the others know. -/
theorem Inv.move (h : Inv n headroom named s) (hpc : t.pc = Function.update s.pc a c)
    (hslot : ∀ i, c.slot = some i → i < n)
    (hguard : ∀ b i, b ≠ a → (s.pc b).guarded = some i → t.guard i = some b)
    (hown : ∀ i, c.guarded = some i → t.guard i = some a)
    (hcross : ∀ b i j k l, b ≠ a → c.passed n = some (i, k) →
      (s.pc b).passed n = some (j, l) → ¬ (j < k ∧ i < l))
    (hother : ∀ b, b ≠ a → Knows n headroom (named b).own t.record (s.pc b))
    (hknows : Knows n headroom (named a).own t.record c) (hfits : Fits n headroom t) :
    Inv n headroom named t := by
  have hself : t.pc a = c := by rw [hpc, Function.update_self]
  have hrest : ∀ b, b ≠ a → t.pc b = s.pc b := fun b hb => by rw [hpc, Function.update_of_ne hb]
  refine ⟨?_, ?_, ?_, ?_, hfits⟩
  · intro b i hb
    by_cases hba : b = a
    · rw [hba, hself] at hb
      exact hslot i hb
    · rw [hrest b hba] at hb
      exact h.slot_lt b i hb
  · intro b i hb
    by_cases hba : b = a
    · rw [hba, hself] at hb
      rw [hba]
      exact hown i hb
    · rw [hrest b hba] at hb
      exact hguard b i hba hb
  · intro b d i j k l hbd hb hd
    by_cases hba : b = a
    · have hda : d ≠ a := fun hda => hbd (hba.trans hda.symm)
      rw [hba, hself] at hb
      rw [hrest d hda] at hd
      exact hcross d i j k l hda hb hd
    · rw [hrest b hba] at hb
      by_cases hda : d = a
      · rw [hda, hself] at hd
        exact fun hlt => hcross b j i l k hba hd hb hlt.symm
      · rw [hrest d hda] at hd
        exact h.cross b d i j k l hbd hb hd
  · intro b
    by_cases hba : b = a
    · rw [hba, hself]
      exact hknows
    · rw [hrest b hba]
      exact hother b hba

/-- A move that touches no guard and no record, at the same slot. -/
theorem Inv.goto (h : Inv n headroom named s) (hpc : (s.pc a).guarded = some i)
    (hc : c.guarded = some i)
    (hcross : ∀ b i j k l, b ≠ a → c.passed n = some (i, k) →
      (s.pc b).passed n = some (j, l) → ¬ (j < k ∧ i < l))
    (hknows : Knows n headroom (named a).own s.record c) : Inv n headroom named (s.goto a c) := by
  refine h.move rfl ?_ (fun b j _ hb => h.guard b j hb) ?_ hcross (fun b _ => h.knows b) hknows
    h.fits
  · intro j hj
    rw [Pc.slot_of_guarded hc, Option.some.injEq] at hj
    exact hj ▸ h.slot_lt a i (Pc.slot_of_guarded hpc)
  · intro j hj
    rw [hc, Option.some.injEq] at hj
    exact hj ▸ h.guard a i hpc

/-- A move that looks at nothing new. -/
theorem Inv.goto_same (h : Inv n headroom named s) (hpc : (s.pc a).guarded = some i)
    (hc : c.guarded = some i)
    (hpassed : ∀ x, c.passed n = some x → (s.pc a).passed n = some x)
    (hknows : Knows n headroom (named a).own s.record c) : Inv n headroom named (s.goto a c) := by
  refine h.goto hpc hc ?_ hknows
  intro b i j k l hba hi hj
  exact h.cross a b i j k l (Ne.symm hba) (hpassed _ hi) hj

theorem Inv.goto_leave (h : Inv n headroom named s) (hpc : (s.pc a).guarded = some i) :
    Inv n headroom named (s.goto a (.leave i)) :=
  h.goto_same hpc rfl (by simp [Pc.passed]) trivial

/-- Taking an absent guard. -/
theorem Inv.take (h : Inv n headroom named s) (hi : i < n) (hfree : s.guard i = none)
    (hslot : c.slot = some i) (hc : c.guarded = some i)
    (hpassed : ∀ j k, c.passed n = some (j, k) → k = 0)
    (hknows : Knows n headroom (named a).own s.record c) :
    Inv n headroom named ((s.setGuard i (some a)).goto a c) := by
  refine h.move rfl ?_ ?_ ?_ ?_ (fun b _ => h.knows b) hknows h.fits
  · intro j hj
    rw [hslot, Option.some.injEq] at hj
    exact hj ▸ hi
  · intro b j _ hb
    have hj := h.guard b j hb
    have hji : j ≠ i := by
      rintro rfl
      rw [hfree] at hj
      cases hj
    simpa [Slots.setGuard, Slots.goto, hji] using hj
  · intro j hj
    rw [hc, Option.some.injEq] at hj
    simp [Slots.setGuard, Slots.goto, hj]
  · intro b i j k l _ hi _ hlt
    have hk := hpassed i k hi
    omega

/-- Removing one's own guard. -/
theorem Inv.drop (h : Inv n headroom named s) (hpc : (s.pc a).guarded = some i)
    (hslot : ∀ j, c.slot = some j → j = i) (hc : c.guarded = none)
    (hknows : Knows n headroom (named a).own s.record c) :
    Inv n headroom named ((s.setGuard i none).goto a c) := by
  refine h.move rfl ?_ ?_ (by simp [hc]) ?_ (fun b _ => h.knows b) hknows h.fits
  · intro j hj
    exact hslot j hj ▸ h.slot_lt a i (Pc.slot_of_guarded hpc)
  · intro b j hba hb
    have hj := h.guard b j hb
    have hji : j ≠ i := by
      rintro rfl
      rw [h.guard a j hpc, Option.some.injEq] at hj
      exact hba hj.symm
    simpa [Slots.setGuard, Slots.goto, hji] using hj
  · intro b i j k l _ hi
    rw [Pc.guarded_of_passed hi] at hc
    cases hc

/-- A guard that is absent is nobody's, so that whoever sees it so has passed only slots at which
no other acquirer is. -/
theorem Inv.clear (h : Inv n headroom named s) {ph : Phase} {j : ℕ} {seen : List ℕ}
    (hpc : s.pc a = .look ph i j seen) (hj : j < n) (hne : j ≠ i) (hfree : s.guard j = none) :
    Inv n headroom named (s.goto a (.read ph i j seen)) := by
  have hknows := h.knows a
  rw [hpc] at hknows
  have hgd : (s.pc a).guarded = some i := by rw [hpc]; rfl
  cases ph with
  | size =>
      refine h.goto_same hgd rfl (by simp [hpc, Pc.passed]) ?_
      exact ⟨hne, hj, hknows.2⟩
  | check =>
      refine h.goto hgd rfl ?_ ⟨hne, hknows⟩
      intro b i' j' k l hba hi hb hlt
      simp only [Pc.passed, Option.some.injEq, Prod.mk.injEq] at hi
      obtain ⟨rfl, rfl⟩ := hi
      by_cases hjj : j' = j
      · rw [hjj] at hb
        have hg := h.guard b j (Pc.guarded_of_passed hb)
        rw [hfree] at hg
        cases hg
      · refine h.cross a b i j' j l (Ne.symm hba) (by rw [hpc]; rfl) hb ⟨by omega, hlt.2⟩

theorem Inv.own (h : Inv n headroom named s) {ph : Phase} {seen : List ℕ}
    (hpc : s.pc a = .look ph i i seen) :
    Inv n headroom named (s.goto a (.look ph i (i + 1) seen)) := by
  have hknows := h.knows a
  rw [hpc] at hknows
  have hgd : (s.pc a).guarded = some i := by rw [hpc]; rfl
  have hi : i < n := h.slot_lt a i (Pc.slot_of_guarded hgd)
  cases ph with
  | size =>
      refine h.goto_same hgd rfl (by simp [hpc, Pc.passed]) ?_
      exact ⟨hi, by rw [others_succ_self]; exact hknows.2.1, hknows.2.2⟩
  | check =>
      refine h.goto hgd rfl ?_ (Covers.own hknows)
      intro b i' j k l hba hi' hb hlt
      simp only [Pc.passed, Option.some.injEq, Prod.mk.injEq] at hi'
      obtain ⟨rfl, rfl⟩ := hi'
      have hji : j ≠ i := by
        rintro rfl
        have hg := h.guard b j (Pc.guarded_of_passed hb)
        rw [h.guard a j hgd, Option.some.injEq] at hg
        exact hba hg.symm
      exact h.cross a b i j i l (Ne.symm hba) (by rw [hpc]; rfl) hb ⟨by omega, hlt.2⟩

theorem Inv.read (h : Inv n headroom named s) {ph : Phase} {j : ℕ} {seen : List ℕ}
    (hpc : s.pc a = .read ph i j seen) :
    Inv n headroom named (s.goto a (.look ph i (j + 1) (seen ++ (s.record j).toList))) := by
  have hknows := h.knows a
  rw [hpc] at hknows
  have hgd : (s.pc a).guarded = some i := by rw [hpc]; rfl
  cases ph with
  | size =>
      obtain ⟨hne, hj, hsum, hroom⟩ := hknows
      refine h.goto_same hgd rfl (by simp [hpc, Pc.passed]) ⟨hj, ?_, hroom⟩
      rw [others_succ hne, List.sum_append]
      cases s.record j <;> simp <;> omega
  | check =>
      refine h.goto_same hgd rfl (by simp [hpc, Pc.passed]) ?_
      exact Covers.read hknows.2 hknows.1

/-- A sizing that passes a pending guard in front of no record misses nothing. -/
theorem Inv.pendingSized (h : Inv n headroom named s) {j : ℕ} {seen : List ℕ}
    (hpc : s.pc a = .look .size i j seen) (hj : j < n) (hne : j ≠ i) (hrec : s.record j = none) :
    Inv n headroom named (s.goto a (.look .size i (j + 1) seen)) := by
  have hknows := h.knows a
  rw [hpc] at hknows
  obtain ⟨_, hsum, hroom⟩ := hknows
  refine h.goto_same (i := i) (by rw [hpc]; rfl) rfl (by simp [hpc, Pc.passed]) ⟨hj, ?_, hroom⟩
  rw [others_succ hne, hrec]
  exact hsum

/-- A new record fits, and no acquirer has looked at its slot. -/
theorem Inv.create (h : Inv n headroom named s) {peak : ℕ} (hpc : s.pc a = .ready i peak) :
    Inv n headroom named ((s.setRecord i (some peak)).goto a (.made i)) := by
  have hgd : (s.pc a).guarded = some i := by rw [hpc]; rfl
  have hi : i < n := h.slot_lt a i (Pc.slot_of_guarded hgd)
  have hroom : Room n headroom s.record i peak := by
    have hknows := h.knows a
    rwa [hpc] at hknows
  have hsame : ∀ j, j ≠ i → (s.setRecord i (some peak)).record j = s.record j :=
    fun j hj => by simp [Slots.setRecord, hj]
  refine h.move rfl ?_ (fun b j _ hb => h.guard b j hb) ?_ (by simp [Pc.passed]) ?_ trivial ?_
  · intro j hj
    exact Option.some.inj hj ▸ hi
  · intro j hj
    exact Option.some.inj hj ▸ h.guard a i hgd
  · intro b hba
    refine (h.knows b).of_fewer ?_
    intro j k hb l hl _
    have hj : j < n := h.slot_lt b j (Pc.slot_of_guarded (Pc.guarded_of_passed hb))
    refine .inr (hsame l ?_)
    rintro rfl
    exact h.cross a b l j n k (Ne.symm hba) (by rw [hpc]; rfl) hb ⟨hj, hl⟩
  · rintro ⟨j, k, hj, hk, hjk, hrj, hrk⟩
    have hother : ∃ l, l < n ∧ l ≠ i ∧ s.record l ≠ none := by
      by_cases hji : j = i
      · have hki : k ≠ i := fun hki => hjk (hji.trans hki.symm)
        exact ⟨k, hk, hki, fun hnone => hrk ((hsame k hki).trans hnone)⟩
      · exact ⟨j, hj, hji, fun hnone => hrj ((hsame j hji).trans hnone)⟩
    have hfewer : Fewer i n s.record (s.setRecord i (some peak)).record :=
      fun l _ hl => .inr (hsame l hl)
    have hle := hfewer.others_le
    have hfit := hroom hother
    calc ∑ l ∈ range n, ((s.setRecord i (some peak)).record l).getD 0
        = peak + others (s.setRecord i (some peak)).record i n := by
          rw [sum_eq_add_others hi]
          simp [Slots.setRecord]
      _ ≤ peak + others s.record i n := by omega
      _ ≤ headroom := hfit

theorem Inv.unlink (h : Inv n headroom named s) (hpc : s.pc a = .retire i) :
    Inv n headroom named ((s.setRecord i none).goto a (.retired i)) := by
  have hgd : (s.pc a).guarded = some i := by rw [hpc]; rfl
  have hsub : ∀ j, (s.setRecord i none).record j = none ∨
      (s.setRecord i none).record j = s.record j := by
    intro j
    by_cases hj : j = i
    · exact .inl (by simp [Slots.setRecord, hj])
    · exact .inr (by simp [Slots.setRecord, hj])
  have hbefore : ∀ j, (s.setRecord i none).record j ≠ none → s.record j ≠ none := by
    intro j hj
    rcases hsub j with hnone | hsame
    · exact absurd hnone hj
    · rwa [hsame] at hj
  refine h.move rfl ?_ (fun b j _ hb => h.guard b j hb) ?_ (by simp [Pc.passed]) ?_ trivial ?_
  · intro j hj
    exact Option.some.inj hj ▸ h.slot_lt a i (Pc.slot_of_guarded hgd)
  · intro j hj
    exact Option.some.inj hj ▸ h.guard a i hgd
  · intro b _
    exact (h.knows b).of_fewer fun _ _ _ l _ _ => hsub l
  · rintro ⟨j, k, hj, hk, hjk, hrj, hrk⟩
    have hfit := h.fits ⟨j, k, hj, hk, hjk, hbefore j hrj, hbefore k hrk⟩
    refine le_trans (sum_le_sum ?_) hfit
    intro l _
    change ((s.setRecord i none).record l).getD 0 ≤ _
    rcases hsub l with hnone | hsame
    · simp [hnone]
    · rw [hsame]

theorem Inv.step {e : A × Act} (h : Inv n headroom named s)
    (hstep : Step n headroom named s e t) (hok : CountsPending s e) : Inv n headroom named t := by
  cases hstep with
  | start hi _ hfree =>
      refine h.take hi hfree rfl rfl ?_ ⟨Nat.zero_le _, by omega⟩
      intro j k hk
      simp only [Pc.passed, Option.some.injEq, Prod.mk.injEq] at hk
      exact hk.2.symm
  | startBusy _ _ => exact h
  | own hpc => exact h.own hpc
  | clear hpc hj hne hfree => exact h.clear hpc hj hne hfree
  | pending hpc _ _ _ => exact h.goto_leave (by rw [hpc]; rfl)
  | pendingSized hpc hj hne hpend =>
      exact h.pendingSized hpc hj hne (hok rfl _ _ _ hpc hne hpend)
  | read hpc => exact h.read hpc
  | short hpc _ => exact h.goto_leave (by rw [hpc]; rfl)
  | @bytes a i seen m hpc hfit hnm =>
      have hcov : Covers s.record i n seen := by simpa [hpc, Knows] using h.knows a
      refine h.goto_same (i := i) (by rw [hpc]; rfl) rfl (by simp [hpc, Pc.passed]) ?_
      have hroom := hcov.room hfit
      rwa [hnm] at hroom
  | @sizing a i seen hpc hfit _ =>
      have hcov : Covers s.record i n seen := by simpa [hpc, Knows] using h.knows a
      refine h.goto_same (i := i) (by rw [hpc]; rfl) rfl (by simp [hpc, Pc.passed]) ?_
      exact ⟨Nat.zero_le _, Nat.zero_le _, hcov.room hfit⟩
  | @size a i seen cpu hpc =>
      have hknows := h.knows a
      rw [hpc] at hknows
      refine h.goto_same (i := i) (by rw [hpc]; rfl) rfl (by simp [hpc, Pc.passed]) ?_
      exact hknows.2.2.sized hknows.2.1 cpu
  | create hpc _ => exact h.create hpc
  | createExists hpc _ => exact h.goto_leave (by rw [hpc]; rfl)
  | quitLook hpc => exact h.goto_leave (by rw [hpc]; rfl)
  | quitReady hpc => exact h.goto_leave (by rw [hpc]; rfl)
  | remove hpc =>
      refine h.drop ?_ (by simp [Pc.slot]) rfl trivial
      rcases hpc with hpc | hpc <;> (rw [hpc]; rfl)
  | removeHeld hpc =>
      refine h.drop ?_ (by simp [Pc.slot]) rfl trivial
      rcases hpc with hpc | hpc <;> (rw [hpc]; rfl)
  | @release a i hpc hfree =>
      exact h.take (h.slot_lt a i (by rw [hpc]; rfl)) hfree rfl rfl (by simp [Pc.passed]) trivial
  | unlink hpc => exact h.unlink hpc
  | @refresh a i hpc hfree =>
      exact h.take (h.slot_lt a i (by rw [hpc]; rfl)) hfree rfl rfl (by simp [Pc.passed]) trivial
  | abandon _ _ =>
      refine h.move rfl (by simp [Pc.slot]) (fun b j _ hb => h.guard b j hb)
        (by simp [Pc.guarded, Pc.slot]) (by simp [Pc.passed]) (fun b _ => h.knows b) trivial h.fits

/-- In a run in which no sizing looks at a pending guard in front of a record, the records fit
wherever there are two of them. -/
theorem records_fit {es : List (A × Act)}
    (hrun : Run (Guarded (Step n headroom named) CountsPending) Slots.init es s) :
    Fits n headroom s := by
  have hinv : Inv n headroom named s := by
    refine hrun.invariant (I := Inv n headroom named) ?_ inv_init
    rintro s e t hs ⟨hstep, hok⟩
    exact hs.step hstep hok
  exact hinv.fits

/-! ### Runs with two slots and ten bytes of headroom -/

/-- Acquirer 0 names six bytes, the others one byte a file. -/
def peaks : ℕ → Named
  | 0 => .bytes 6
  | _ => .perFile 1

theorem countsPending_of_ne {s : Slots ℕ} {a : ℕ} {act : Act} (h : act ≠ .look) :
    CountsPending s (a, act) :=
  fun heq => absurd heq h

theorem countsPending_of_check {s : Slots ℕ} {a i j : ℕ} {seen : List ℕ} {act : Act}
    (h : s.pc a = .look .check i j seen) : CountsPending s (a, act) := by
  intro _ i' j' seen' hpc
  simp only [h, Pc.look.injEq, reduceCtorEq, false_and] at hpc

theorem countsPending_of_size {s : Slots ℕ} {a i j : ℕ} {seen : List ℕ} {act : Act}
    (h : s.pc a = .look .size i j seen) (hj : j = i ∨ s.guard j = none) :
    CountsPending s (a, act) := by
  intro _ i' j' seen' hpc hne hpend
  simp only [h, Pc.look.injEq] at hpc
  obtain ⟨-, rfl, rfl, -⟩ := hpc
  rcases hj with heq | hfree
  · exact absurd heq hne
  · exact absurd hfree hpend

/-- Acquirer 0 takes slot 0. -/
def acquiring : List (ℕ × Act) :=
  [(0, .start 0), (0, .look), (0, .look), (0, .read), (0, .judge), (0, .create), (0, .remove)]

/-- Acquirer 1 tries slot 0, finds its record there, and is admitted to slot 1. -/
def admitting : List (ℕ × Act) :=
  [(1, .start 0), (1, .look), (1, .look), (1, .read), (1, .judge), (1, .look), (1, .look),
    (1, .read), (1, .size 12), (1, .create), (1, .remove), (1, .start 1), (1, .look), (1, .read),
    (1, .look), (1, .judge)]

/-- Its sizing and its record. -/
def publishing : List (ℕ × Act) := [(1, .size 12), (1, .create)]

/-- Up to the sizing of acquirer 1. -/
theorem admitting_run :
    ∃ s : Slots ℕ,
      Run (Guarded (Step 2 10 peaks) CountsPending) Slots.init (acquiring ++ admitting) s ∧
        s.pc 1 = .look .size 1 0 [] ∧ s.pc 2 = .idle ∧ s.guard 0 = none ∧
        s.record 0 = some 6 ∧ s.record 1 = none := by
  refine ⟨?state, ?run, ?facts⟩
  case run =>
    refine .cons ⟨.start (by decide) rfl rfl, countsPending_of_ne (by decide)⟩ ?_
    refine .cons ⟨.own rfl, countsPending_of_check rfl⟩ ?_
    refine .cons ⟨.clear rfl (by decide) (by decide) rfl, countsPending_of_check rfl⟩ ?_
    refine .cons ⟨.read rfl, countsPending_of_ne (by decide)⟩ ?_
    refine .cons ⟨.bytes rfl (by decide) rfl, countsPending_of_ne (by decide)⟩ ?_
    refine .cons ⟨.create rfl rfl, countsPending_of_ne (by decide)⟩ ?_
    refine .cons ⟨.removeHeld (.inl rfl), countsPending_of_ne (by decide)⟩ ?_
    refine .cons ⟨.start (by decide) rfl rfl, countsPending_of_ne (by decide)⟩ ?_
    refine .cons ⟨.own rfl, countsPending_of_check rfl⟩ ?_
    refine .cons ⟨.clear rfl (by decide) (by decide) rfl, countsPending_of_check rfl⟩ ?_
    refine .cons ⟨.read rfl, countsPending_of_ne (by decide)⟩ ?_
    refine .cons ⟨.sizing rfl (by decide) (by simp [peaks]), countsPending_of_ne (by decide)⟩ ?_
    refine .cons ⟨.own rfl, countsPending_of_size rfl (.inl rfl)⟩ ?_
    refine .cons ⟨.clear rfl (by decide) (by decide) rfl, countsPending_of_size rfl (.inr rfl)⟩ ?_
    refine .cons ⟨.read rfl, countsPending_of_ne (by decide)⟩ ?_
    refine .cons ⟨.size rfl, countsPending_of_ne (by decide)⟩ ?_
    refine .cons ⟨.createExists rfl (by decide), countsPending_of_ne (by decide)⟩ ?_
    refine .cons ⟨.remove (.inl rfl), countsPending_of_ne (by decide)⟩ ?_
    refine .cons ⟨.start (by decide) rfl rfl, countsPending_of_ne (by decide)⟩ ?_
    refine .cons ⟨.clear rfl (by decide) (by decide) rfl, countsPending_of_check rfl⟩ ?_
    refine .cons ⟨.read rfl, countsPending_of_ne (by decide)⟩ ?_
    refine .cons ⟨.own rfl, countsPending_of_check rfl⟩ ?_
    refine .cons ⟨.sizing rfl (by decide) (by simp [peaks]), countsPending_of_ne (by decide)⟩ ?_
    exact .nil
  case facts =>
    exact ⟨rfl, rfl, rfl, rfl, rfl⟩

theorem not_fits_of_records {s : Slots ℕ} (h0 : s.record 0 = some 6) (h1 : s.record 1 = some 10) :
    ¬ Fits 2 10 s := by
  intro h
  have hsum := h ⟨0, 1, by decide, by decide, by decide, by simp [h0], by simp [h1]⟩
  simp [sum_range_succ, h0, h1] at hsum

/-- Acquirer 2 takes the guard of slot 0 between the judgement and the sizing of acquirer 1, which
then counts nothing for the six bytes held there. -/
theorem sized_past_pending_guard :
    ∃ s : Slots ℕ,
      Run (Step 2 10 peaks) Slots.init
        ((acquiring ++ admitting) ++ ([(2, .start 0), (1, .look), (1, .look)] ++ publishing)) s ∧
        s.record 0 = some 6 ∧ s.record 1 = some 10 ∧ ¬ Fits 2 10 s := by
  obtain ⟨s, hrun, hpc, hidle, hfree, hheld, hnone⟩ := admitting_run
  refine ⟨?state, hrun.of_guarded.append ?run, ?facts⟩
  case run =>
    refine .cons (.start (by decide) hidle hfree) ?_
    refine .cons (.pendingSized hpc (by decide) (by decide) (by simp [Slots.goto, Slots.setGuard])) ?_
    refine .cons (.own rfl) ?_
    refine .cons (.size rfl) ?_
    refine .cons (.create rfl hnone) ?_
    exact .nil
  case facts =>
    exact ⟨hheld, rfl, not_fits_of_records hheld rfl⟩

/-- Without acquirer 2 the sizing counts what slot 0 holds. -/
theorem records_fit_sized :
    ∃ s : Slots ℕ, s.record 0 = some 6 ∧ s.record 1 = some 4 ∧ Fits 2 10 s := by
  obtain ⟨s, hrun, hpc, -, hfree, hheld, hnone⟩ := admitting_run
  have hgo : ∃ u, Run (Guarded (Step 2 10 peaks) CountsPending) s
      ([(1, .look), (1, .read), (1, .look)] ++ publishing) u ∧
        u.record 0 = some 6 ∧
        u.record 1 = some ((peaks 1).ownPeak 12 (10 - ([] ++ (s.record 0).toList).sum)) := by
    refine ⟨?state, ?run, ?facts⟩
    case run =>
      refine .cons ⟨.clear hpc (by decide) (by decide) hfree,
        countsPending_of_size hpc (.inr hfree)⟩ ?_
      refine .cons ⟨.read rfl, countsPending_of_ne (by decide)⟩ ?_
      refine .cons ⟨.own rfl, countsPending_of_size rfl (.inl rfl)⟩ ?_
      refine .cons ⟨.size rfl, countsPending_of_ne (by decide)⟩ ?_
      refine .cons ⟨.create rfl hnone, countsPending_of_ne (by decide)⟩ ?_
      exact .nil
    case facts => exact ⟨hheld, rfl⟩
  obtain ⟨u, hu, hsix, hfour⟩ := hgo
  refine ⟨u, hsix, ?_, records_fit (hrun.append hu)⟩
  rw [hfour, hheld]
  decide

end Remudero.TestSlot.Memory
