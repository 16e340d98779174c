import Mathlib

/-! # The newest of each key

`keepNewest` keeps the last `k` entries of every key, where they stand: of one key the last `k` entries stay
(`filter_keepNewest`).  Taking the last `k` entries after every new one is taking them once (`rtake_rtake_append`).

`middle` is the lower median of a list.  It lies between two entries of every end of the list that is longer than the rest
(`middle_between`). -/

namespace Remudero.Lib

section keys

variable {α κ : Type*} [DecidableEq κ] (key : α → κ) (k : ℕ)

def keepNewest : List α → List α
  | [] => []
  | a :: l => if l.countP (fun b => key b = key a) < k then a :: keepNewest l else keepNewest l

variable {key k}

theorem keepNewest_sublist (l : List α) : (keepNewest key k l).Sublist l := by
  induction l with
  | nil => exact List.Sublist.refl _
  | cons a l ih =>
      unfold keepNewest
      split
      · exact ih.cons_cons a
      · exact ih.cons a

/-- Of one key the last `k` entries stay. -/
theorem filter_keepNewest (c : κ) (l : List α) :
    (keepNewest key k l).filter (fun b => key b = c) = (l.filter fun b => key b = c).rtake k := by
  induction l with
  | nil => simp [keepNewest]
  | cons a l ih =>
      unfold keepNewest
      by_cases hc : key a = c
      · subst hc
        have hself : (a :: l).filter (fun b => key b = key a) = a :: l.filter fun b => key b = key a :=
          List.filter_cons_of_pos (by simp)
        have hlength : (l.filter fun b => key b = key a).length = l.countP fun b => key b = key a := List.countP_eq_length_filter.symm
        rw [hself]
        split
        next hlt =>
          rw [List.filter_cons_of_pos (by simp), ih]
          unfold List.rtake
          rw [List.length_cons, hlength, Nat.sub_eq_zero_of_le hlt.le, Nat.sub_eq_zero_of_le hlt]
          rfl
        next hle =>
          rw [ih]
          unfold List.rtake
          rw [List.length_cons, hlength, Nat.succ_sub (not_lt.mp hle), List.drop_succ_cons]
      · have hother : (a :: l).filter (fun b => key b = c) = l.filter fun b => key b = c :=
          List.filter_cons_of_neg (by simpa using hc)
        rw [hother]
        split
        · rw [List.filter_cons_of_neg (by simpa using hc), ih]
        · exact ih

/-- Entries that were cut off before new ones came are cut off with them. -/
theorem rtake_rtake_append (k : ℕ) (l t : List α) : (l.rtake k ++ t).rtake k = (l ++ t).rtake k := by
  rw [List.rtake_eq_reverse_take_reverse, List.rtake_eq_reverse_take_reverse, List.rtake_eq_reverse_take_reverse,
    List.reverse_append, List.reverse_append, List.reverse_reverse, List.take_append, List.take_append, List.take_take,
    min_eq_left (Nat.sub_le _ _)]

end keys

section order

variable {α : Type*} [LinearOrder α]

/-- The lower median. -/
def middle (l : List α) : Option α := (l.mergeSort fun a b => decide (a ≤ b))[(l.length - 1) / 2]?

theorem sortedLE_mergeSort (l : List α) : (l.mergeSort fun a b => decide (a ≤ b)).Pairwise (· ≤ ·) := by
  have htrans : ∀ a b c : α, decide (a ≤ b) = true → decide (b ≤ c) = true → decide (a ≤ c) = true := fun a b c hab hbc =>
    decide_eq_true (le_trans (of_decide_eq_true hab) (of_decide_eq_true hbc))
  have htotal : ∀ a b : α, (decide (a ≤ b) || decide (b ≤ a)) = true := fun a b =>
    Bool.or_eq_true_iff.mpr ((le_total a b).imp decide_eq_true decide_eq_true)
  have hsorted := List.pairwise_mergeSort htrans htotal l
  exact hsorted.imp fun h => of_decide_eq_true h

theorem succ_le_countP_le {l : List α} (h : l.Pairwise (· ≤ ·)) {i : ℕ} (hi : i < l.length) : i + 1 ≤ l.countP (· ≤ l[i]) := by
  have hall : ∀ a ∈ l.take (i + 1), decide (a ≤ l[i]) = true := by
    intro a ha
    obtain ⟨j, hj, rfl⟩ := List.mem_iff_getElem.mp ha
    rw [List.length_take] at hj
    rw [List.getElem_take]
    obtain hji | rfl := Nat.lt_or_eq_of_le (Nat.lt_succ_iff.mp (lt_of_lt_of_le hj (min_le_left _ _)))
    · exact decide_eq_true (List.pairwise_iff_getElem.mp h j i (by omega) hi hji)
    · exact decide_eq_true le_rfl
  have hcount := List.countP_eq_length.mpr hall
  rw [List.length_take, min_eq_left hi] at hcount
  rw [← hcount]
  exact (List.take_sublist _ _).countP_le

theorem sub_le_countP_ge {l : List α} (h : l.Pairwise (· ≤ ·)) {i : ℕ} (hi : i < l.length) : l.length - i ≤ l.countP (l[i] ≤ ·) := by
  have hall : ∀ a ∈ l.drop i, decide (l[i] ≤ a) = true := by
    intro a ha
    obtain ⟨j, hj, rfl⟩ := List.mem_iff_getElem.mp ha
    rw [List.length_drop] at hj
    rw [List.getElem_drop]
    obtain rfl | hpos := Nat.eq_zero_or_pos j
    · exact decide_eq_true le_rfl
    · exact decide_eq_true (List.pairwise_iff_getElem.mp h i (i + j) hi (by omega) (by omega))
  have hcount := List.countP_eq_length.mpr hall
  rw [List.length_drop] at hcount
  rw [← hcount]
  exact (List.drop_sublist _ _).countP_le

/-- The median is not outside an end of the list that is longer than the rest. -/
theorem middle_between {older recent : List α} (h : older.length < recent.length) :
    ∃ m, middle (older ++ recent) = some m ∧ (∃ a ∈ recent, a ≤ m) ∧ ∃ a ∈ recent, m ≤ a := by
  let sorted := (older ++ recent).mergeSort fun a b => decide (a ≤ b)
  have hperm : sorted.Perm (older ++ recent) := List.mergeSort_perm _ _
  have hlength : sorted.length = older.length + recent.length := by rw [hperm.length_eq, List.length_append]
  obtain ⟨i, hindex⟩ : ∃ i, i = ((older ++ recent).length - 1) / 2 := ⟨_, rfl⟩
  have hhalf : i = (older.length + recent.length - 1) / 2 := by rw [hindex, List.length_append]
  have hi : i < sorted.length := by omega
  have hbelow := succ_le_countP_le (sortedLE_mergeSort (older ++ recent)) hi
  have habove := sub_le_countP_ge (sortedLE_mergeSort (older ++ recent)) hi
  have hmiddle : middle (older ++ recent) = some sorted[i] := by
    rw [middle, ← hindex]
    exact List.getElem?_eq_getElem hi
  generalize sorted[i] = m at hbelow habove hmiddle
  change _ ≤ sorted.countP _ at hbelow
  change sorted.length - _ ≤ sorted.countP _ at habove
  rw [hperm.countP_eq, List.countP_append] at hbelow habove
  refine ⟨m, hmiddle, ?_, ?_⟩
  · by_contra hnone
    push Not at hnone
    have hrecent : recent.countP (· ≤ m) = 0 := List.countP_eq_zero.mpr fun a ha => by simpa using hnone a ha
    have holder : older.countP (· ≤ m) ≤ older.length := List.countP_le_length
    omega
  · by_contra hnone
    push Not at hnone
    have hrecent : recent.countP (m ≤ ·) = 0 := List.countP_eq_zero.mpr fun a ha => by simpa using hnone a ha
    have holder : older.countP (m ≤ ·) ≤ older.length := List.countP_le_length
    omega

end order

end Remudero.Lib
