import Mathlib

/-! # Lineage

Walking up a partial function `parent`.  `ancestor parent n a` is what `n` steps lead to,
`seek parent p fuel a` looks for an ancestor with `p` at a distance of at most `fuel`, and
`Line parent root a as` lists the ancestors of `a` up to one that is a root.

* `seek_iff`: a search finds exactly the ancestors within its fuel.
* `Line.mono`: a line stays a line when parents stay parents and roots stay roots. -/

namespace Remudero.Lib

variable {α : Type*}

def ancestor (parent : α → Option α) : ℕ → α → Option α
  | 0, a => some a
  | n + 1, a => (parent a).bind (ancestor parent n)

def seek (parent : α → Option α) (p : α → Bool) : ℕ → α → Bool
  | 0, _ => false
  | fuel + 1, a =>
      match parent a with
      | none => false
      | some b => if p b then true else seek parent p fuel b

section Seek

variable {parent : α → Option α} {p : α → Bool}

theorem ancestor_succ {a b : α} (h : parent a = some b) (n : ℕ) :
    ancestor parent (n + 1) a = ancestor parent n b := by
  simp [ancestor, h]

theorem seek_iff {fuel : ℕ} {a : α} :
    seek parent p fuel a = true ↔
      ∃ n < fuel, ∃ b, ancestor parent (n + 1) a = some b ∧ p b = true := by
  induction fuel generalizing a with
  | zero => simp [seek]
  | succ fuel ih =>
      cases hp : parent a with
      | none => simp [seek, hp, ancestor]
      | some b =>
          by_cases hb : p b = true
          · have h0 : ∃ n < fuel + 1, ∃ c, ancestor parent (n + 1) a = some c ∧ p c = true :=
              ⟨0, by omega, b, by simp [ancestor, hp], hb⟩
            simp only [seek, hp, hb, if_true, true_iff]
            exact h0
          · simp only [seek, hp, hb, Bool.false_eq_true, if_false, ih]
            constructor
            · rintro ⟨n, hn, c, hc, hpc⟩
              exact ⟨n + 1, by omega, c, by rw [ancestor_succ hp, hc], hpc⟩
            · rintro ⟨n, hn, c, hc, hpc⟩
              rw [ancestor_succ hp] at hc
              cases n with
              | zero =>
                  simp only [ancestor, Option.some.injEq] at hc
                  exact absurd (hc ▸ hpc) hb
              | succ n => exact ⟨n, by omega, c, hc, hpc⟩

end Seek

/-- The ancestors of `a`, nearest first, up to a root. -/
inductive Line (parent : α → Option α) (root : α → Prop) : α → List α → Prop
  | root {a : α} : root a → Line parent root a []
  | up {a b : α} {as : List α} :
      parent a = some b → Line parent root b as → Line parent root a (b :: as)

theorem Line.mono {parent parent' : α → Option α} {root root' : α → Prop} {a : α} {as : List α}
    (h : Line parent root a as) (hp : ∀ a b, parent a = some b → parent' a = some b)
    (hr : ∀ a, root a → root' a) : Line parent' root' a as := by
  induction h with
  | root ha => exact .root (hr _ ha)
  | up hab _ ih => exact .up (hp _ _ hab) ih

end Remudero.Lib
