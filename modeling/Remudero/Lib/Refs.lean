import Mathlib

/-! # Stores of references with compare-and-swap

A store maps names to optional values.  It is changed by three conditional operations, each
answering `none` when it is refused and leaves the store as it was:

* `create k v` sets an absent name (setting a name to the value it has already is accepted);
* `lease k e v` replaces or deletes (`v = none`) the name only while it has the value `e`;
* `erase k` deletes whatever value the name has.

The lemmas say which value each operation can take away: `create` none, `lease` only the value
it names, `erase` any. -/

namespace Remudero.Lib

/-- A store of references. -/
abbrev Refs (κ ν : Type*) := κ → Option ν

namespace Refs

variable {κ ν : Type*} [DecidableEq κ] {r r' : Refs κ ν} {k j : κ} {e v w : ν}

/-- Delete `k` whatever it holds. -/
def erase (r : Refs κ ν) (k : κ) : Option (Refs κ ν) :=
  if r k = none then none else some (Function.update r k none)

theorem erase_eq (h : r.erase k = some r') : r k ≠ none ∧ r' = Function.update r k none := by
  unfold erase at h
  split at h
  · cases h
  · exact ⟨by assumption, (Option.some.inj h).symm⟩

variable [DecidableEq ν]

/-- Create `k` if it is absent. -/
def create (r : Refs κ ν) (k : κ) (v : ν) : Option (Refs κ ν) :=
  match r k with
  | none => some (Function.update r k (some v))
  | some w => if w = v then some r else none

/-- Replace the value of `k`, or delete it, while it is `e`. -/
def lease (r : Refs κ ν) (k : κ) (e : ν) (v : Option ν) : Option (Refs κ ν) :=
  if r k = some e then some (Function.update r k v) else none

theorem create_of_some (h : r.create k v = some r') (hj : r j = some w) : r' j = some w := by
  unfold create at h
  split at h
  next hk =>
    obtain rfl := Option.some.inj h
    have hne : j ≠ k := by rintro rfl; simp [hk] at hj
    rw [Function.update_of_ne hne]
    exact hj
  next =>
    split at h
    · obtain rfl := Option.some.inj h
      exact hj
    · cases h

/-- A created name is new or has the value already. -/
theorem create_value (h : r.create k v = some r') (hj : r' j = some w) :
    r j = some w ∨ (j = k ∧ w = v) := by
  unfold create at h
  split at h
  · obtain rfl := Option.some.inj h
    by_cases hjk : j = k
    · subst hjk
      right
      simpa using hj.symm
    · left
      rwa [Function.update_of_ne hjk] at hj
  · split at h
    · obtain rfl := Option.some.inj h
      exact .inl hj
    · cases h

theorem lease_eq {v : Option ν} (h : r.lease k e v = some r') :
    r k = some e ∧ r' = Function.update r k v := by
  unfold lease at h
  split at h
  · exact ⟨by assumption, (Option.some.inj h).symm⟩
  · cases h

/-- A leased operation takes away only the value it names. -/
theorem lease_removes {v : Option ν} (h : r.lease k e v = some r') (hj : r j = some w)
    (hne : r' j ≠ some w) : j = k ∧ w = e := by
  obtain ⟨hk, rfl⟩ := lease_eq h
  by_cases hjk : j = k
  · subst hjk
    rw [hk] at hj
    exact ⟨rfl, (Option.some.inj hj).symm⟩
  · rw [Function.update_of_ne hjk] at hne
    exact absurd hj hne

end Refs

end Remudero.Lib
