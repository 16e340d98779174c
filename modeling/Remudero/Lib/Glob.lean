import Mathlib

/-! # Patterns with stars

A pattern over an alphabet with a distinguished letter `star`: the star matches any word and every other
letter itself.  The star may be taken for nothing or for one more letter (`matches_star_iff`), and two
stars in a row are as good as one (`matches_star_star`). -/

namespace Remudero.Lib.Glob

variable {α : Type*} [DecidableEq α] {star : α} {c : α} {p q s t : List α}

/-- The pattern matches the word. -/
def Matches (star : α) : List α → List α → Prop
  | [], s => s = []
  | c :: p, s => if c = star then ∃ u v, s = u ++ v ∧ Matches star p v else ∃ t, s = c :: t ∧ Matches star p t

theorem matches_nil : Matches star [] s ↔ s = [] := Iff.rfl

theorem matches_letter (h : c ≠ star) : Matches star (c :: p) s ↔ ∃ t, s = c :: t ∧ Matches star p t := by
  rw [Matches, if_neg h]

theorem matches_star : Matches star (star :: p) s ↔ ∃ u v, s = u ++ v ∧ Matches star p v := by
  rw [Matches, if_pos rfl]

theorem Matches.skip (h : Matches star p s) : Matches star (star :: p) s := matches_star.mpr ⟨[], s, rfl, h⟩

theorem Matches.absorb (h : Matches star (star :: p) s) (c : α) : Matches star (star :: p) (c :: s) := by
  obtain ⟨u, v, rfl, hv⟩ := matches_star.mp h
  exact matches_star.mpr ⟨c :: u, v, rfl, hv⟩

/-- A star is taken for nothing, or for the first letter and more. -/
theorem matches_star_iff :
    Matches star (star :: p) s ↔ Matches star p s ∨ ∃ c t, s = c :: t ∧ Matches star (star :: p) t := by
  constructor
  · intro h
    obtain ⟨u, v, rfl, hv⟩ := matches_star.mp h
    cases u with
    | nil => exact Or.inl hv
    | cons c u => exact Or.inr ⟨c, u ++ v, rfl, matches_star.mpr ⟨u, v, rfl, hv⟩⟩
  · rintro (h | ⟨c, t, rfl, h⟩)
    · exact h.skip
    · exact h.absorb c

theorem matches_star_star : Matches star (star :: star :: p) s ↔ Matches star (star :: p) s := by
  constructor
  · intro h
    obtain ⟨u, v, rfl, hv⟩ := matches_star.mp h
    obtain ⟨u', w, rfl, hw⟩ := matches_star.mp hv
    exact matches_star.mpr ⟨u ++ u', w, (List.append_assoc u u' w).symm, hw⟩
  · exact Matches.skip

/-- What two patterns match after one beginning. -/
theorem matches_append_congr (h : ∀ s, Matches star p s ↔ Matches star q s) (x : List α) :
    Matches star (x ++ p) s ↔ Matches star (x ++ q) s := by
  induction x generalizing s with
  | nil => exact h s
  | cons c x ih =>
      rw [List.cons_append, List.cons_append]
      by_cases hc : c = star
      · subst hc
        rw [matches_star, matches_star]
        simp only [ih]
      · rw [matches_letter hc, matches_letter hc]
        simp only [ih]

/-- A pattern without stars matches itself only. -/
theorem matches_of_not_mem (h : star ∉ p) : Matches star p s ↔ s = p := by
  induction p generalizing s with
  | nil => exact matches_nil
  | cons c p ih =>
      rw [List.mem_cons, not_or] at h
      rw [matches_letter (Ne.symm h.1)]
      simp only [ih h.2]
      constructor
      · rintro ⟨t, rfl, rfl⟩
        rfl
      · rintro rfl
        exact ⟨p, rfl, rfl⟩

end Remudero.Lib.Glob
