import Mathlib

/-! # Loops that may not end

A loop is a step function: from a state it goes to the next state or leaves with a result.
`loop step fuel s` runs at most `fuel` rounds and is `none` while the loop is still going, so
`∃ fuel, loop step fuel s = some r` says that the loop ends with `r`.

* `loop_mono`: more fuel does not change a result.
* `loop_none_of_step_self`: a state that steps to itself is never left.
* `ends_of_step`, `not_ends_of_step`: one round more or less does not matter.
* `loop_map`: a loop whose rounds are those of another one, seen through a map.
* `loop_inv`: what every round keeps holds when the loop is left.
* `exists_fuel_forall`: finitely many loops that end do so with one amount of fuel. -/

namespace Remudero.Lib

variable {σ ρ : Type*} (step : σ → σ ⊕ ρ)

def loop : ℕ → σ → Option ρ
  | 0, _ => none
  | fuel + 1, s =>
      match step s with
      | .inl t => loop fuel t
      | .inr r => some r

variable {step} {s t : σ} {r : ρ}

theorem loop_succ_inl (fuel : ℕ) (h : step s = .inl t) : loop step (fuel + 1) s = loop step fuel t := by
  simp [loop, h]

theorem loop_succ_inr (fuel : ℕ) (h : step s = .inr r) : loop step (fuel + 1) s = some r := by
  simp [loop, h]

theorem loop_mono {fuel fuel' : ℕ} (hle : fuel ≤ fuel') (h : loop step fuel s = some r) :
    loop step fuel' s = some r := by
  induction fuel generalizing fuel' s with
  | zero => simp [loop] at h
  | succ n ih =>
      obtain ⟨m, rfl⟩ : ∃ m, fuel' = m + 1 := ⟨fuel' - 1, by omega⟩
      cases hs : step s with
      | inl t =>
          rw [loop_succ_inl _ hs] at h ⊢
          exact ih (by omega) h
      | inr q =>
          rw [loop_succ_inr _ hs] at h ⊢
          exact h

/-- A state that steps to itself is never left. -/
theorem loop_none_of_step_self (h : step s = .inl s) (fuel : ℕ) : loop step fuel s = none := by
  induction fuel with
  | zero => rfl
  | succ n ih => rw [loop_succ_inl n h, ih]

theorem ends_of_step (h : step s = .inl t) (ht : ∃ fuel, loop step fuel t = some r) :
    ∃ fuel, loop step fuel s = some r := by
  obtain ⟨fuel, ht⟩ := ht
  exact ⟨fuel + 1, by rw [loop_succ_inl fuel h, ht]⟩

theorem not_ends_of_step (h : step s = .inl t) (ht : ∀ fuel, loop step fuel t = none) (fuel : ℕ) :
    loop step fuel s = none := by
  cases fuel with
  | zero => rfl
  | succ n => rw [loop_succ_inl n h, ht n]

/-- A loop over a picture of the states. -/
theorem loop_map {σ' ρ' : Type*} {step' : σ' → σ' ⊕ ρ'} {picture : σ → σ'} {out : ρ → ρ'}
    (h : ∀ s, step' (picture s) = (step s).map picture out) (fuel : ℕ) (s : σ) :
    loop step' fuel (picture s) = (loop step fuel s).map out := by
  induction fuel generalizing s with
  | zero => rfl
  | succ n ih =>
      have hs := h s
      cases hstep : step s with
      | inl t =>
          rw [hstep] at hs
          rw [loop_succ_inl n hs, loop_succ_inl n hstep, ih]
      | inr r =>
          rw [hstep] at hs
          rw [loop_succ_inr n hs, loop_succ_inr n hstep]
          rfl

theorem loop_inv {I : σ → Prop} {Q : ρ → Prop} (hkeep : ∀ s t, I s → step s = .inl t → I t)
    (hleave : ∀ s r, I s → step s = .inr r → Q r) {fuel : ℕ} (hs : I s) (h : loop step fuel s = some r) : Q r := by
  induction fuel generalizing s with
  | zero => simp [loop] at h
  | succ n ih =>
      cases hstep : step s with
      | inl t =>
          rw [loop_succ_inl n hstep] at h
          exact ih (hkeep s t hs hstep) h
      | inr q =>
          rw [loop_succ_inr n hstep] at h
          obtain rfl := Option.some.inj h
          exact hleave s q hs hstep

/-- Fuel that is enough for each of finitely many loops. -/
theorem exists_fuel_forall {α : Type*} {l : List α} {P : α → ℕ → Prop}
    (h : ∀ a ∈ l, ∃ fuel₀, ∀ fuel, fuel₀ ≤ fuel → P a fuel) :
    ∃ fuel₀, ∀ fuel, fuel₀ ≤ fuel → ∀ a ∈ l, P a fuel := by
  induction l with
  | nil => exact ⟨0, fun _ _ a ha => nomatch ha⟩
  | cons a l ih =>
      obtain ⟨own, hown⟩ := h a List.mem_cons_self
      obtain ⟨rest, hrest⟩ := ih fun b hb => h b (List.mem_cons_of_mem a hb)
      refine ⟨max own rest, fun fuel hfuel b hb => ?_⟩
      obtain rfl | hb := List.mem_cons.mp hb
      · exact hown fuel ((Nat.le_max_left own rest).trans hfuel)
      · exact hrest fuel ((Nat.le_max_right own rest).trans hfuel) b hb

end Remudero.Lib
