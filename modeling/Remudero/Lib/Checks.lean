import Mathlib

/-! # Checks that throw

Fallible code is a computation in `Except`; a check is one that returns nothing.  A sequence of
checks succeeds exactly when each of them does (`bind_eq_ok_iff`, `forM_eq_ok_iff`), which turns
the success of a function into the conjunction of what it verified. -/

namespace Remudero.Lib

theorem bind_eq_ok_iff {ε α β : Type} {x : Except ε α} {f : α → Except ε β} {b : β} :
    x >>= f = .ok b ↔ ∃ a, x = .ok a ∧ f a = .ok b := by
  cases x with
  | error err => simp [bind, Except.bind]
  | ok a => simp [bind, Except.bind]

theorem forM_eq_ok_iff {ε α : Type} {l : List α} {f : α → Except ε Unit} :
    l.forM f = .ok () ↔ ∀ x ∈ l, f x = .ok () := by
  induction l with
  | nil => simp [pure, Except.pure]
  | cons x l ih =>
      rw [List.forall_mem_cons, ← ih]
      show f x >>= (fun _ => l.forM f) = .ok () ↔ _
      rw [bind_eq_ok_iff]
      constructor
      · rintro ⟨⟨⟩, hx, hl⟩
        exact ⟨hx, hl⟩
      · rintro ⟨hx, hl⟩
        exact ⟨(), hx, hl⟩

end Remudero.Lib
