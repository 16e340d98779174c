import Mathlib

/-! # Filters that look ahead

`keepAfter keep` goes through a list and keeps an element when `keep` accepts it together with the
elements after it.  Such a filter composes over appending (`keepAfter_append_keepAfter`): filtering a
first part, appending to it and filtering again is filtering once, when what `keep` refuses it refuses
whatever comes later, and when it does not miss the elements that were dropped.

A program usually writes such a filter with a first pass that fills a map from keys to the place of
the last element with the key (`lastAt`), and a second pass that compares places; `map_fst_filter_zipIdx`
with `any_lt_lastAt` and `lastAt_eq_some_iff` turns that form into `keepAfter`. -/

namespace Remudero.Lib

variable {α κ : Type*}

def keepAfter (keep : α → List α → Bool) : List α → List α
  | [] => []
  | a :: as => if keep a as then a :: keepAfter keep as else keepAfter keep as

section keepAfter

variable {keep keep' : α → List α → Bool}

theorem keepAfter_sublist (as : List α) : (keepAfter keep as).Sublist as := by
  induction as with
  | nil => exact List.Sublist.refl _
  | cons a as ih =>
      rw [keepAfter]
      split
      · exact ih.cons_cons a
      · exact ih.cons a

/-- Elements that are never refused, and are mapped alike, are all still there. -/
theorem filterMap_keepAfter (f : α → Option κ) (h : ∀ a as, (f a).isSome → keep a as = true)
    (as : List α) : (keepAfter keep as).filterMap f = as.filterMap f := by
  induction as with
  | nil => rfl
  | cons a as ih =>
      rw [keepAfter]
      split
      · rw [List.filterMap_cons, List.filterMap_cons, ih]
      next hk =>
        have hf : f a = none := by
          by_contra hne
          exact hk (h a as (Option.isSome_iff_ne_none.mpr hne))
        rw [List.filterMap_cons_none hf, ih]

/-- An element is refused whatever comes later once it is refused, and the refused elements are not
missed: the two filters compose. -/
theorem keepAfter_append_keepAfter
    (refused : ∀ a as bs, keep a as = false → keep' a (as ++ bs) = false)
    (missed : ∀ a as bs, keep a as = true → keep' a (keepAfter keep as ++ bs) = keep' a (as ++ bs))
    (as bs : List α) :
    keepAfter keep' (keepAfter keep as ++ bs) = keepAfter keep' (as ++ bs) := by
  induction as with
  | nil => rfl
  | cons a as ih =>
      cases hk : keep a as with
      | true =>
          rw [keepAfter, if_pos hk, List.cons_append, List.cons_append, keepAfter, keepAfter,
            missed a as bs hk, ih]
      | false =>
          rw [keepAfter, if_neg (by simp [hk]), List.cons_append, keepAfter,
            if_neg (by simp [refused a as bs hk]), ih]

end keepAfter

/-! ### Places -/

section lastAt

variable [DecidableEq κ] (key : α → Option κ)

/-- The map that a pass over the list fills with the place of each element under its key. -/
def lastAt (as : List α) (k : κ) : Option ℕ :=
  as.zipIdx.foldl (fun found p => if key p.1 = some k then some p.2 else found) none

def lastFrom (k : κ) (n : ℕ) (as : List α) (found : Option ℕ) : Option ℕ :=
  (as.zipIdx n).foldl (fun found p => if key p.1 = some k then some p.2 else found) found

variable {key}

theorem lastFrom_none {k : κ} {as : List α} (h : ∀ a ∈ as, key a ≠ some k) (n : ℕ) (found : Option ℕ) :
    lastFrom key k n as found = found := by
  induction as generalizing n with
  | nil => rfl
  | cons a as ih =>
      have ha : key a ≠ some k := h a List.mem_cons_self
      rw [lastFrom, List.zipIdx_cons, List.foldl_cons, if_neg ha]
      exact ih (fun b hb => h b (List.mem_cons_of_mem a hb)) (n + 1)

variable (key) in
theorem lastFrom_range (k : κ) (as : List α) (n : ℕ) (found : Option ℕ) :
    lastFrom key k n as found = found ∨ ∃ j, lastFrom key k n as found = some j ∧ n ≤ j ∧ j < n + as.length := by
  induction as generalizing n found with
  | nil => exact Or.inl rfl
  | cons a as ih =>
      have hstep : lastFrom key k n (a :: as) found
          = lastFrom key k (n + 1) as (if key a = some k then some n else found) := rfl
      rw [hstep, List.length_cons]
      obtain h | ⟨j, hj, h1, h2⟩ := ih (n + 1) (if key a = some k then some n else found)
      · rw [h]
        split
        · exact Or.inr ⟨n, rfl, le_rfl, by omega⟩
        · exact Or.inl rfl
      · exact Or.inr ⟨j, hj, by omega, by omega⟩

theorem lastFrom_some {k : κ} {as : List α} (h : ∃ a ∈ as, key a = some k) (n : ℕ) (found : Option ℕ) :
    ∃ j, lastFrom key k n as found = some j ∧ n ≤ j := by
  induction as generalizing n found with
  | nil =>
      obtain ⟨a, ha, -⟩ := h
      cases ha
  | cons a as ih =>
      have hstep : lastFrom key k n (a :: as) found
          = lastFrom key k (n + 1) as (if key a = some k then some n else found) := rfl
      rw [hstep]
      by_cases hlater : ∃ b ∈ as, key b = some k
      · obtain ⟨j, hj, hn⟩ := ih hlater (n + 1) (if key a = some k then some n else found)
        exact ⟨j, hj, by omega⟩
      · have hno : ∀ b ∈ as, key b ≠ some k := fun b hb hk => hlater ⟨b, hb, hk⟩
        obtain ⟨b, hb, hk⟩ := h
        have hba : b = a := by
          apply (List.mem_cons.mp hb).resolve_right
          intro hmem
          exact hno b hmem hk
        rw [lastFrom_none hno, if_pos (hba ▸ hk)]
        exact ⟨n, rfl, le_rfl⟩

theorem lastAt_append_cons (before : List α) (a : α) (after : List α) (k : κ) :
    lastAt key (before ++ a :: after) k
      = lastFrom key k (before.length + 1) after
          (if key a = some k then some before.length else lastAt key before k) := by
  rw [lastAt, List.zipIdx_append, List.foldl_append, List.zipIdx_cons, List.foldl_cons]
  simp only [Nat.zero_add]
  rfl

theorem lastAt_lt {before : List α} {k : κ} {j : ℕ} (h : lastAt key before k = some j) :
    j < before.length := by
  have hrange := lastFrom_range key k before 0 none
  have hrfl : lastFrom key k 0 before none = lastAt key before k := rfl
  rw [hrfl, h] at hrange
  obtain h' | ⟨i, hi, -, hlt⟩ := hrange
  · cases h'
  · rw [Option.some.inj hi]
    omega

/-- The last place of a key is after `a` when an element after `a` has the key. -/
theorem any_lt_lastAt (before : List α) (a : α) (after : List α) (k : κ) :
    ((lastAt key (before ++ a :: after) k).any fun j => before.length < j)
      = after.any fun b => key b = some k := by
  rw [lastAt_append_cons]
  by_cases hlater : ∃ b ∈ after, key b = some k
  · obtain ⟨j, hj, hn⟩ := lastFrom_some hlater (before.length + 1)
      (if key a = some k then some before.length else lastAt key before k)
    have hany : (after.any fun b => decide (key b = some k)) = true := by
      obtain ⟨b, hb, hk⟩ := hlater
      exact List.any_eq_true.mpr ⟨b, hb, decide_eq_true hk⟩
    rw [hj, hany, Option.any_some, decide_eq_true_eq]
    omega
  · have hno : ∀ b ∈ after, key b ≠ some k := fun b hb hk => hlater ⟨b, hb, hk⟩
    have hany : (after.any fun b => decide (key b = some k)) = false :=
      List.any_eq_false.mpr fun b hb => by simpa using hno b hb
    rw [lastFrom_none hno, hany]
    split
    · simp
    · cases hb : lastAt key before k with
      | none => rfl
      | some j =>
          have hj : j < before.length := lastAt_lt hb
          rw [Option.any_some, decide_eq_false_iff_not]
          omega

/-- The place of an element is the last one of its key when no element after it has the key. -/
theorem lastAt_eq_some_iff {before : List α} {a : α} {after : List α} {k : κ} (ha : key a = some k) :
    lastAt key (before ++ a :: after) k = some before.length ↔ ∀ b ∈ after, key b ≠ some k := by
  rw [lastAt_append_cons, if_pos ha]
  constructor
  · intro h b hb hk
    obtain ⟨j, hj, hn⟩ := lastFrom_some ⟨b, hb, hk⟩ (before.length + 1) (some before.length)
    have hlen : j = before.length := Option.some.inj (hj.symm.trans h)
    omega
  · intro h
    exact lastFrom_none h _ _

end lastAt

theorem map_fst_filter_zipIdx_from {f : α → ℕ → Bool} {keep : α → List α → Bool} (n : ℕ) (as : List α)
    (h : ∀ before a after, before ++ a :: after = as → f a (n + before.length) = keep a after) :
    ((as.zipIdx n).filter fun p => f p.1 p.2).map Prod.fst = keepAfter keep as := by
  induction as generalizing n with
  | nil => rfl
  | cons a as ih =>
      have ha : f a n = keep a as := h [] a as rfl
      have htail : ∀ before b after, before ++ b :: after = as → f b (n + 1 + before.length) = keep b after := by
        intro before b after heq
        have hb := h (a :: before) b after (by rw [List.cons_append, heq])
        rwa [List.length_cons, show n + (before.length + 1) = n + 1 + before.length by omega] at hb
      rw [List.zipIdx_cons, List.filter_cons, keepAfter, ← ha]
      split
      · rw [List.map_cons, ih (n + 1) htail]
      · exact ih (n + 1) htail

/-- A filter by places is a filter that looks ahead. -/
theorem map_fst_filter_zipIdx {f : α → ℕ → Bool} {keep : α → List α → Bool} (as : List α)
    (h : ∀ before a after, before ++ a :: after = as → f a before.length = keep a after) :
    (as.zipIdx.filter fun p => f p.1 p.2).map Prod.fst = keepAfter keep as := by
  apply map_fst_filter_zipIdx_from
  intro before a after heq
  rw [Nat.zero_add]
  exact h before a after heq

end Remudero.Lib
