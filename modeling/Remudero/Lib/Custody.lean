import Mathlib

/-! # Items in custody

Holders accept items and deliver them to a common log, which may also receive notes of its own.
`Custody items notes log held` says that every accepted item stands at most once in the log and is
either there or still with a holder, never both.  The rules:

* `Custody.perm`: only the contents of the log count, not its order;
* `Custody.accept`: a holder takes fresh items;
* `Custody.deliver`: a holder moves a block of its items to the log;
* `Custody.note`: the log receives notes;
* `Custody.count_log`: once nobody holds anything, every item stands exactly once in the log. -/

namespace Remudero.Lib

/-- Every item is in the log or held, and at most once in the log. -/
structure Custody {α ι : Type*} [BEq α] (items notes log : List α) (held : ι → List α) : Prop where
  known : ∀ x ∈ log, x ∈ items ∨ x ∈ notes
  once : ∀ x ∈ items, log.count x ≤ 1
  apart : ∀ i, ∀ x ∈ held i, x ∉ log
  kept : ∀ x ∈ items, x ∈ log ∨ ∃ i, x ∈ held i

namespace Custody

variable {α ι : Type*} [BEq α] [LawfulBEq α] {items notes log log' xs : List α} {held held' : ι → List α} {i : ι}

omit [LawfulBEq α] in
theorem perm (h : Custody items notes log held) (hlog : log'.Perm log) (hheld : ∀ i x, x ∈ held' i ↔ x ∈ held i) :
    Custody items notes log' held' := by
  refine ⟨?_, ?_, ?_, ?_⟩
  · intro x hx
    exact h.known x (hlog.mem_iff.mp hx)
  · intro x hx
    rw [hlog.count_eq]
    exact h.once x hx
  · intro i x hx hlogx
    exact h.apart i x ((hheld i x).mp hx) (hlog.mem_iff.mp hlogx)
  · intro x hx
    rcases h.kept x hx with hin | ⟨i, hi⟩
    · exact .inl (hlog.mem_iff.mpr hin)
    · exact .inr ⟨i, (hheld i x).mpr hi⟩

omit [LawfulBEq α] in
theorem more_notes (h : Custody items notes log held) (ns : List α) : Custody items (notes ++ ns) log held :=
  ⟨fun x hx => (h.known x hx).imp_right (List.mem_append_left _), h.once, h.apart, h.kept⟩

/-- A holder that holds nothing takes fresh items. -/
theorem accept (h : Custody items notes log held) (hfresh : ∀ x ∈ xs, x ∉ items ∧ x ∉ notes)
    (hi : held i = []) (hi' : held' i = xs) (hj : ∀ j, j ≠ i → held' j = held j) :
    Custody (items ++ xs) notes log held' := by
  have hout : ∀ x ∈ xs, x ∉ log := by
    intro x hx hin
    rcases h.known x hin with hitem | hnote
    · exact (hfresh x hx).1 hitem
    · exact (hfresh x hx).2 hnote
  refine ⟨fun x hx => (h.known x hx).imp_left (List.mem_append_left _), ?_, ?_, ?_⟩
  · intro x hx
    rcases List.mem_append.mp hx with hx | hx
    · exact h.once x hx
    · rw [List.count_eq_zero.mpr (hout x hx)]
      omega
  · intro j x hx
    by_cases hji : j = i
    · subst hji
      rw [hi'] at hx
      exact hout x hx
    · rw [hj j hji] at hx
      exact h.apart j x hx
  · intro x hx
    rcases List.mem_append.mp hx with hx | hx
    · rcases h.kept x hx with hin | ⟨j, hxj⟩
      · exact .inl hin
      · right
        have hji : j ≠ i := by
          rintro rfl
          rw [hi] at hxj
          cases hxj
        exact ⟨j, by rw [hj j hji]; exact hxj⟩
    · exact .inr ⟨i, by rw [hi']; exact hx⟩

/-- A holder moves a block of what it holds to the log. -/
theorem deliver (h : Custody items notes log held) (hlog : log'.Perm (log ++ xs))
    (hmem : ∀ x ∈ held i, x ∈ items) (hnodup : (held i).Nodup) (hi : (held i).Perm (xs ++ held' i))
    (hj : ∀ j, j ≠ i → held' j = held j) (hdisj : ∀ j, j ≠ i → ∀ x ∈ held i, x ∉ held j) :
    Custody items notes log' held' := by
  have hsub : ∀ x ∈ xs, x ∈ held i := fun x hx => hi.mem_iff.mpr (List.mem_append_left _ hx)
  have hxs : (xs ++ held' i).Nodup := hi.nodup_iff.mp hnodup
  refine ⟨?_, ?_, ?_, ?_⟩
  · intro x hx
    rcases List.mem_append.mp (hlog.mem_iff.mp hx) with hin | hin
    · exact h.known x hin
    · exact .inl (hmem x (hsub x hin))
  · intro x hx
    rw [hlog.count_eq, List.count_append]
    by_cases hin : x ∈ xs
    · rw [List.count_eq_zero.mpr (h.apart i x (hsub x hin))]
      have := List.nodup_iff_count_le_one.mp (List.Nodup.of_append_left hxs) x
      omega
    · rw [List.count_eq_zero.mpr hin]
      exact h.once x hx
  · intro j x hx hin
    by_cases hji : j = i
    · subst hji
      rcases List.mem_append.mp (hlog.mem_iff.mp hin) with hin | hin
      · exact h.apart j x (hi.mem_iff.mpr (List.mem_append_right _ hx)) hin
      · exact (List.disjoint_of_nodup_append hxs) hin hx
    · rw [hj j hji] at hx
      rcases List.mem_append.mp (hlog.mem_iff.mp hin) with hin | hin
      · exact h.apart j x hx hin
      · exact hdisj j hji x (hsub x hin) hx
  · intro x hx
    rcases h.kept x hx with hin | ⟨j, hxj⟩
    · exact .inl (hlog.mem_iff.mpr (List.mem_append_left _ hin))
    · by_cases hji : j = i
      · subst hji
        rcases List.mem_append.mp (hi.mem_iff.mp hxj) with hxs | hrest
        · exact .inl (hlog.mem_iff.mpr (List.mem_append_right _ hxs))
        · exact .inr ⟨j, hrest⟩
      · exact .inr ⟨j, by rw [hj j hji]; exact hxj⟩

/-- The log receives notes, which are no items. -/
theorem note (h : Custody items notes log held) (hlog : log'.Perm (log ++ xs)) (hxs : ∀ x ∈ xs, x ∈ notes)
    (hdisj : ∀ x ∈ notes, x ∉ items) (hheld : ∀ i, ∀ x ∈ held i, x ∈ items) : Custody items notes log' held := by
  refine ⟨?_, ?_, ?_, ?_⟩
  · intro x hx
    rcases List.mem_append.mp (hlog.mem_iff.mp hx) with hin | hin
    · exact h.known x hin
    · exact .inr (hxs x hin)
  · intro x hx
    have hnot : x ∉ xs := fun hin => hdisj x (hxs x hin) hx
    rw [hlog.count_eq, List.count_append, List.count_eq_zero.mpr hnot]
    exact h.once x hx
  · intro i x hx hin
    rcases List.mem_append.mp (hlog.mem_iff.mp hin) with hin | hin
    · exact h.apart i x hx hin
    · exact hdisj x (hxs x hin) (hheld i x hx)
  · intro x hx
    exact (h.kept x hx).imp_left fun hin => hlog.mem_iff.mpr (List.mem_append_left _ hin)

/-- Nobody holds anything: every item stands exactly once in the log. -/
theorem count_log (h : Custody items notes log held) (hempty : ∀ i, held i = []) {x : α} (hx : x ∈ items) :
    log.count x = 1 := by
  have hin : x ∈ log := by
    rcases h.kept x hx with hin | ⟨i, hi⟩
    · exact hin
    · rw [hempty i] at hi
      cases hi
  have hpos := List.count_pos_iff.mpr hin
  have hle := h.once x hx
  omega

end Custody

end Remudero.Lib
