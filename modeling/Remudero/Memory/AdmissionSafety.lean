import Remudero.Memory.Admission

/-! # Observed pressure is never overridden

`admitted_unpressed`: whatever the request, the turns and the state of the maps and of the held
record, a start that is admitted was judged on a verdict without measured shortage and without a
ceiling that the container has sighted; and swap-in or pressure stall are there only on the
starvation tier, of a class held for the bound.

Each rung has its lemma, `admitAs_spec` puts them together in the source's order, and the loop only
picks the turn. -/

namespace Remudero.Memory

open Remudero.Lib

/-- Neither measured shortage nor a sighted ceiling. -/
def Verdict.Unpressed (v : Verdict) : Prop :=
  .memoryAvailable ∉ v.reasons ∧
    ¬ (.containerCeiling ∈ v.reasons ∧ v.numbers.containerSighted = true)

/-- Neither swap-in nor pressure stall. -/
def Verdict.Calm (v : Verdict) : Prop := .swapIn ∉ v.reasons ∧ .psi ∉ v.reasons

/-- The tier of an outcome that lets the start go on. -/
def Outcome.tier : Outcome → Option Admit
  | admitted a _ _ _ => some a
  | ready => some .fits
  | _ => none

/-! ### The rungs -/

variable {pol : Policy} {req : Request} {st : Start} {attempt : ℕ} {t : Turn} {inputs : Inputs}
  {v : Verdict} {m m' : Maps} {a : Admit}

theorem unpressed_of_fits (h : admissionTier v = .fits) : v.Unpressed ∧ v.Calm := by
  have hnil : v.reasons = [] := by
    unfold admissionTier Verdict.wouldAdmit at h
    split at h
    · rename_i hempty
      simpa using hempty
    · split at h <;> cases h
  simp [Verdict.Unpressed, Verdict.Calm, hnil]

theorem unpressed_of_uncertain (h : admissionTier v = .uncertain) : v.Unpressed ∧ v.Calm := by
  have hall : ∀ r ∈ v.reasons, r = .uncertainty := by
    unfold admissionTier at h
    split at h
    · cases h
    split at h
    · rename_i hall
      simpa using hall
    · cases h
  refine ⟨⟨?_, ?_⟩, ?_, ?_⟩
  · exact fun hr => absurd (hall _ hr) (by decide)
  · exact fun hr => absurd (hall _ hr.1) (by decide)
  · exact fun hr => absurd (hall _ hr) (by decide)
  · exact fun hr => absurd (hall _ hr) (by decide)

theorem unpressed_of_unobserved (h : observedMemoryShortfall v = none) : v.Unpressed ∧ v.Calm := by
  unfold observedMemoryShortfall at h
  split at h
  · cases h
  split at h
  · cases h
  split at h
  · cases h
  split at h
  · cases h
  · rename_i hmem hceil hswap hpsi
    exact ⟨⟨hmem, hceil⟩, hswap, hpsi⟩

theorem unpressed_of_aged (h : agedRungBlock pol.priority req st t = none) :
    t.verdict.Unpressed ∧ t.verdict.Calm := by
  unfold agedRungBlock at h
  split at h
  · cases h
  split at h
  · split at h
    · split at h <;> cases h
    · cases h
  dsimp only at h
  split at h
  · cases h
  split at h
  · cases h
  · exact unpressed_of_unobserved h

/-- What the own-tail rung admits past. -/
theorem mem_of_ownTailReason {sighted : Bool} {reasons : List Reason}
    (h : ownTailReason sighted reasons = none) {r : Reason} (hr : r ∈ reasons) :
    r = .containerCeiling ∧ sighted = false ∨ r = .unrealizedReservations := by
  induction reasons with
  | nil => cases hr
  | cons x rest ih =>
      cases x <;> simp only [ownTailReason] at h
      case containerCeiling =>
          split at h
          · cases h
          · rename_i hs
            rcases List.mem_cons.mp hr with rfl | hmem
            · exact .inl ⟨rfl, by simpa using hs⟩
            · exact ih h hmem
      case unrealizedReservations =>
          rcases List.mem_cons.mp hr with rfl | hmem
          · exact .inr rfl
          · exact ih h hmem
      all_goals cases h

theorem unpressed_of_ownTail (h : ownTailRung pol req.root inputs v m = (none, m')) :
    v.Unpressed ∧ v.Calm := by
  have hnone : ownTailReason v.numbers.containerSighted v.reasons = none := by
    unfold ownTailRung at h
    split at h
    · simp at h
    split at h
    · simp at h
    · assumption
  have hmem := @mem_of_ownTailReason _ _ hnone
  refine ⟨⟨?_, ?_⟩, ?_, ?_⟩
  · exact fun hr => by simpa using hmem hr
  · rintro ⟨hr, hs⟩
    have hcases := hmem hr
    simp [hs] at hcases
  · exact fun hr => by simpa using hmem hr
  · exact fun hr => by simpa using hmem hr

theorem unpressed_of_starvation {classKey : Text × WorkerClass} {held : ℤ}
    {record : Option HeldRecord} (h : starvationBlock classKey inputs v held record m = (none, m')) :
    v.Unpressed ∧ MEMORY_ADMISSION_STARVATION_MS ≤ held := by
  unfold starvationBlock at h
  split at h
  · simp at h
  split at h
  · simp at h
  rename_i hheld hsoft
  have hall : ∀ r ∈ v.reasons, r ∈ STARVATION_SOFT_REASONS := by simpa using hsoft
  refine ⟨⟨?_, ?_⟩, by omega⟩
  · exact fun hr => absurd (hall _ hr) (by decide)
  · exact fun hr => absurd (hall _ hr.1) (by decide)

/-! ### The evaluation and the loop -/

theorem lastRungs_spec (h : (lastRungs pol req t inputs).1 = some a) :
    t.verdict.Unpressed ∧
      (¬ t.verdict.Calm → a = .starvation ∧ MEMORY_ADMISSION_STARVATION_MS ≤ heldMs req t) := by
  unfold lastRungs at h
  split at h
  · rename_i hrung
    obtain ⟨hun, hcalm⟩ := unpressed_of_ownTail hrung
    exact ⟨hun, fun hnot => absurd hcalm hnot⟩
  split at h
  · rename_i hblock
    obtain ⟨hun, hheld⟩ := unpressed_of_starvation hblock
    have ha : Admit.starvation = a := by simpa using h
    exact ⟨hun, fun _ => ⟨ha.symm, hheld⟩⟩
  · cases h

/-- Whatever tier a start is admitted on. -/
theorem admitAs_spec (h : (admitAs pol req st attempt t inputs).1 = some a) :
    t.verdict.Unpressed ∧
      (¬ t.verdict.Calm → a = .starvation ∧ MEMORY_ADMISSION_STARVATION_MS ≤ heldMs req t) := by
  have hcalm : t.verdict.Unpressed ∧ t.verdict.Calm → t.verdict.Unpressed ∧
      (¬ t.verdict.Calm → a = .starvation ∧ MEMORY_ADMISSION_STARVATION_MS ≤ heldMs req t) :=
    fun hboth => ⟨hboth.1, fun hnot => absurd hboth.2 hnot⟩
  unfold admitAs at h
  split at h
  · -- a validation request
    split at h
    · rename_i hfits
      exact hcalm (unpressed_of_fits hfits.2)
    · cases h
  split at h
  · rename_i hfits
    exact hcalm (unpressed_of_fits hfits)
  · rename_i huncertain
    exact hcalm (unpressed_of_uncertain huncertain)
  · split at h
    · rename_i hwait
      exact hcalm (unpressed_of_unobserved hwait.2)
    split at h
    · rename_i haged
      exact hcalm (unpressed_of_aged haged.2)
    · exact lastRungs_spec h

theorem settle_done {admitted b : Option Admit} {written : Option HeldStore}
    (h : settle req t admitted m = .done b m' written) : admitted = b := by
  unfold settle at h
  dsimp only at h
  split at h
  · simp_all
  split at h
  · split at h <;> simp_all
  · simp_all

/-- An evaluation admits what `admitAs` says. -/
theorem evaluate_done {written : Option HeldStore}
    (h : evaluate pol req st attempt t inputs = .done (some a) m written) :
    (admitAs pol req st attempt t inputs).1 = some a := by
  unfold evaluate at h
  split at h
  · have hnone := settle_done h
    cases hnone
  · rename_i b m' hadm
    split at h
    · cases h
    split at h
    · cases h
    · have hb := settle_done h
      rw [hadm]
      exact hb

/-- A validation request goes on only when it fits. -/
theorem admitAs_validation (hval : req.validation = true)
    (h : (admitAs pol req st attempt t inputs).1 = some a) : a = .fits := by
  unfold admitAs at h
  rw [if_pos hval] at h
  split at h
  · exact (Option.some.inj h).symm
  · cases h

/-- An evaluation after which the start goes on has admitted it. -/
theorem conclude_tier {ev : Evaluated} {o : Outcome} (h : conclude req st attempt t inputs ev = some o)
    (htier : o.tier = some a) :
    ∃ b m written, ev = .done (some b) m written ∧ (a = b ∨ req.validation = true ∧ a = .fits) := by
  cases ev with
  | threw m =>
      simp only [conclude, Option.some.injEq] at h
      subst h
      split at htier <;> cases htier
  | done b m written =>
      cases b with
      | none =>
          simp only [conclude] at h
          split at h
          · split at h <;> cases h
            cases htier
          · split at h <;> cases h
            cases htier
      | some b =>
          refine ⟨b, m, written, rfl, ?_⟩
          simp only [conclude] at h
          split at h
          · rename_i hval
            obtain rfl := Option.some.inj h
            split at htier
            · exact .inr ⟨hval, (Option.some.inj htier).symm⟩
            · cases htier
          · obtain rfl := Option.some.inj h
            exact .inl (Option.some.inj htier).symm

/-- A turn that lets the start go on has admitted it. -/
theorem turn_tier {o : Outcome} (h : turn pol req st attempt t = some o) (htier : o.tier = some a) :
    ∃ inputs, (admitAs pol req st attempt t inputs).1 = some a := by
  unfold turn at h
  split at h
  · obtain rfl := Option.some.inj h
    split at htier <;> cases htier
  split at h
  · split at h <;> cases h
    cases htier
  split at h
  · split at h <;> cases h
    cases htier
  split at h
  · obtain rfl := Option.some.inj h
    split at htier <;> cases htier
  · rename_i inputs _
    obtain ⟨b, m, written, heval, hb⟩ := conclude_tier h htier
    have hadm := evaluate_done heval
    refine ⟨inputs, ?_⟩
    rcases hb with rfl | ⟨hval, rfl⟩
    · exact hadm
    · rw [hadm, admitAs_validation hval hadm]

/-- The loop's outcome is the outcome of one of its turns. -/
theorem admissionLoop_turn {ts : List Turn} {o : Outcome}
    (h : admissionLoop pol req st attempt ts = some (o, t)) :
    t ∈ ts ∧ ∃ k, turn pol req st k t = some o := by
  induction ts generalizing attempt with
  | nil => cases h
  | cons x rest ih =>
      simp only [admissionLoop] at h
      split at h
      · rename_i o' hturn
        simp only [Option.some.injEq, Prod.mk.injEq] at h
        obtain ⟨rfl, rfl⟩ := h
        exact ⟨List.mem_cons_self, attempt, hturn⟩
      · obtain ⟨hmem, hk⟩ := ih h
        exact ⟨List.mem_cons_of_mem x hmem, hk⟩

/-- An admitted start was judged, in one of the turns, on a verdict without measured shortage and
without a sighted ceiling; with swap-in or pressure stall only by starvation. -/
theorem admitted_unpressed {ref : ℕ} {startedAt : ℤ} {ts : List Turn} {o : Outcome}
    (h : awaitMemoryAdmission pol req ref m startedAt ts = some (o, some t))
    (htier : o.tier = some a) :
    t ∈ ts ∧ t.verdict.Unpressed ∧
      (¬ t.verdict.Calm → a = .starvation ∧ MEMORY_ADMISSION_STARVATION_MS ≤ heldMs req t) := by
  unfold awaitMemoryAdmission at h
  split at h
  · simp at h
  · simp only [Option.map_eq_some_iff, Prod.mk.injEq, Option.some.injEq, Prod.exists] at h
    obtain ⟨o', t', hloop, rfl, rfl⟩ := h
    obtain ⟨hmem, k, hturn⟩ := admissionLoop_turn hloop
    obtain ⟨inputs, hadm⟩ := turn_tier hturn htier
    exact ⟨hmem, admitAs_spec hadm⟩

/-! ### A review held for an hour by pressure stall -/

/-- Every class enforces, all with the same weight. -/
def enforcing : Policy := ⟨⟨fun _ => 1, 0, fun _ _ => true⟩, 1024, fun _ => true⟩

def review : Request := ⟨.review, ['s'], ['r'], none, false, none, none, false⟩

/-- Pressure stall is the only reason. -/
def stalled : Verdict := ⟨[.psi], ⟨false, some 4096, 0, 0, 0, none, 0⟩⟩

/-- The review waits alone while other work runs. -/
def waitingReview (now : ℤ) : Turn where
  aborted := false
  now := now
  maps := { Maps.empty with waiting := [⟨0, ['s'], .review, 0⟩] }
  held := fun _ => none
  busy := false
  inputs := some ⟨true, [⟨['w'], false, false, none⟩], false, none⟩
  verdict := stalled
  reservation := some ['n']
  alerts := true
  complete := true
  marked := true

theorem admitted_unpressed_starved :
    awaitMemoryAdmission enforcing review 0 Maps.empty 0 [waitingReview 0, waitingReview 3600000] =
        some (.admitted .starvation 3600000 1 (some ['n']), some (waitingReview 3600000)) ∧
      .psi ∈ stalled.reasons ∧ stalled.Unpressed ∧
      MEMORY_ADMISSION_STARVATION_MS ≤ heldMs review (waitingReview 3600000) := by
  have h : awaitMemoryAdmission enforcing review 0 Maps.empty 0
      [waitingReview 0, waitingReview 3600000] =
        some (.admitted .starvation 3600000 1 (some ['n']), some (waitingReview 3600000)) := rfl
  obtain ⟨-, hun, hheld⟩ := admitted_unpressed h rfl
  have hpsi : Reason.psi ∈ stalled.reasons := by decide
  exact ⟨h, hpsi, hun, (hheld fun hcalm => hcalm.2 hpsi).2⟩

end Remudero.Memory
