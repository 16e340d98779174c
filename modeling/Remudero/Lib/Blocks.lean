import Mathlib

/-! # Blocks behind a mark

A log is searched for a contiguous block of entries from the end (`lastIndexOf`), and the blocks
that stand behind the first entry of a class are picked out (`behindFirst`).  A block stands behind
the mark exactly when it is an infix of what follows it (`lt_lastIndexOf_iff`).  The two facts
that a log growing at its end needs:

* entries that no block contains change nothing (`behindFirst_append`);
* a block just written stands behind the mark if there is one (`behindFirst_own`). -/

namespace Remudero.Lib

variable {α : Type*} [DecidableEq α] {l xs b : List α} {blocks : List (List α)} {p : α → Bool}

/-- The last position at which the block `b` stands. -/
def lastIndexOf (b : List α) : List α → Option ℕ
  | [] => none
  | x :: xs =>
      match lastIndexOf b xs with
      | some i => some (i + 1)
      | none => if b.isPrefixOf (x :: xs) then some 0 else none

/-- The blocks that stand behind the first entry of the class `p`. -/
def behindFirst (p : α → Bool) (l : List α) (blocks : List (List α)) : List (List α) :=
  match l.findIdx? p with
  | none => []
  | some sealAt => blocks.filter fun b => (lastIndexOf b l).any fun i => decide (sealAt < i)

theorem prefix_of_lastIndexOf {i : ℕ} (h : lastIndexOf b l = some i) : b <+: l.drop i := by
  induction l generalizing i with
  | nil => cases h
  | cons x xs ih =>
      unfold lastIndexOf at h
      cases hxs : lastIndexOf b xs with
      | some j =>
          rw [hxs] at h
          obtain rfl := Option.some.inj h
          exact ih hxs
      | none =>
          rw [hxs] at h
          dsimp only at h
          split at h
          next hpre =>
            obtain rfl := Option.some.inj h
            exact List.isPrefixOf_iff_prefix.mp hpre
          next => cases h

theorem le_lastIndexOf {j : ℕ} (hb : b ≠ []) (h : b <+: l.drop j) : ∃ i, lastIndexOf b l = some i ∧ j ≤ i := by
  induction l generalizing j with
  | nil =>
      rw [List.drop_nil, List.prefix_nil] at h
      exact absurd h hb
  | cons x xs ih =>
      unfold lastIndexOf
      cases hxs : lastIndexOf b xs with
      | some i =>
          refine ⟨i + 1, rfl, ?_⟩
          cases j with
          | zero => omega
          | succ j =>
              obtain ⟨i', hi', hle⟩ := ih h
              rw [hxs] at hi'
              obtain rfl := Option.some.inj hi'
              omega
      | none =>
          cases j with
          | zero =>
              have hpre : b.isPrefixOf (x :: xs) = true := List.isPrefixOf_iff_prefix.mpr h
              exact ⟨0, if_pos hpre, le_refl _⟩
          | succ j =>
              obtain ⟨i', hi', -⟩ := ih h
              rw [hxs] at hi'
              cases hi'

theorem lt_lastIndexOf_iff {n : ℕ} (hb : b ≠ []) :
    ((lastIndexOf b l).any fun i => decide (n < i)) = true ↔ b <:+: l.drop (n + 1) := by
  constructor
  · intro h
    obtain ⟨i, hi, hlt⟩ := (Option.any_eq_true _ _).mp h
    have hlt := of_decide_eq_true hlt
    refine (prefix_of_lastIndexOf hi).isInfix.trans ?_
    obtain ⟨k, rfl⟩ := Nat.exists_eq_add_of_lt hlt
    rw [show n + k + 1 = (n + 1) + k by omega, ← List.drop_drop]
    exact (List.drop_suffix _ _).isInfix
  · intro h
    obtain ⟨t, hpre, hsuf⟩ := List.infix_iff_prefix_suffix.mp h
    obtain ⟨u, hu⟩ := hsuf
    have hdrop : l.drop (n + 1 + u.length) = t := by
      rw [← List.drop_drop, ← hu, List.drop_left]
    obtain ⟨i, hi, hle⟩ := le_lastIndexOf hb (hdrop ▸ hpre)
    rw [hi]
    simp only [Option.any_some, decide_eq_true_eq]
    omega

/-- No mark, nothing behind it. -/
theorem behindFirst_of_none (h : ∀ x ∈ l, p x = false) : behindFirst p l blocks = [] := by
  unfold behindFirst
  rw [List.findIdx?_eq_none_iff.mpr h]

omit [DecidableEq α] in
/-- A block whose entries are none of `xs` does not reach into them. -/
theorem infix_append_of_disjoint (hb : b ≠ []) (hxs : ∀ x ∈ xs, x ∉ b) : b <:+: l ++ xs ↔ b <:+: l := by
  constructor
  · intro h
    induction xs using List.reverseRecOn with
    | nil => simpa using h
    | append_singleton xs x ih =>
        rw [← List.append_assoc, List.infix_concat_iff] at h
        have hx : x ∉ b := hxs x (by simp)
        rcases h with hsuf | hinf
        · rcases List.suffix_concat_iff.mp hsuf with rfl | ⟨t, rfl, -⟩
          · exact absurd rfl hb
          · simp at hx
        · exact ih (fun y hy => hxs y (by simp [hy])) hinf
  · intro h
    exact h.trans (List.prefix_append _ _).isInfix

/-- Entries that no block contains change nothing. -/
theorem behindFirst_append (h : ∀ b ∈ blocks, b ≠ [] ∧ ∀ x ∈ xs, x ∉ b) :
    behindFirst p (l ++ xs) blocks = behindFirst p l blocks := by
  unfold behindFirst
  rw [List.findIdx?_append]
  cases hl : l.findIdx? p with
  | some sealAt =>
      have hlt : sealAt < l.length := (List.findIdx?_eq_some_iff_findIdx_eq.mp hl).1
      dsimp only [Option.some_or]
      refine List.filter_congr fun b hb => ?_
      obtain ⟨hne, hxs⟩ := h b hb
      rw [Bool.eq_iff_iff, lt_lastIndexOf_iff hne, lt_lastIndexOf_iff hne,
        List.drop_append_of_le_length (by omega)]
      exact infix_append_of_disjoint hne hxs
  | none =>
      -- a mark among the new entries has no block behind it
      simp only [Option.none_or]
      cases hx : xs.findIdx? p with
      | none => rfl
      | some j =>
          simp only [Option.map_some]
          refine List.filter_eq_nil_iff.mpr fun b hb => ?_
          obtain ⟨hne, hxs⟩ := h b hb
          rw [lt_lastIndexOf_iff hne, show j + l.length + 1 = l.length + (j + 1) by omega,
            List.drop_append, List.drop_eq_nil_of_le (by omega), List.nil_append]
          intro hinf
          obtain ⟨y, hy⟩ := List.exists_mem_of_ne_nil b hne
          exact hxs y (List.mem_of_mem_drop (hinf.subset hy)) hy

theorem behindFirst_cons {c : List α} :
    behindFirst p l (c :: blocks) = behindFirst p l [c] ++ behindFirst p l blocks := by
  unfold behindFirst
  cases l.findIdx? p with
  | none => rfl
  | some sealAt => exact List.filter_append [c] blocks

/-- A block written behind a mark. -/
theorem behindFirst_own (hb : b ≠ []) (h : ∃ x ∈ l, p x = true) : behindFirst p (l ++ b) [b] = [b] := by
  obtain ⟨x, hx, hpx⟩ := h
  unfold behindFirst
  rw [List.findIdx?_append]
  cases hl : l.findIdx? p with
  | none =>
      have := List.findIdx?_eq_none_iff.mp hl x hx
      rw [hpx] at this
      cases this
  | some sealAt =>
      have hlt : sealAt < l.length := (List.findIdx?_eq_some_iff_findIdx_eq.mp hl).1
      dsimp only [Option.some_or]
      refine List.filter_eq_self.mpr fun c hc => ?_
      obtain rfl := List.mem_singleton.mp hc
      rw [lt_lastIndexOf_iff hb, List.drop_append_of_le_length (by omega)]
      exact (List.suffix_append _ _).isInfix

omit [DecidableEq α] in
theorem takeWhile_append_of_stop (h : ∃ x ∈ l, p x = false) : (l ++ xs).takeWhile p = l.takeWhile p := by
  induction l with
  | nil =>
      obtain ⟨x, hx, -⟩ := h
      cases hx
  | cons y l ih =>
      rw [List.cons_append, List.takeWhile_cons, List.takeWhile_cons]
      cases hy : p y with
      | false => rfl
      | true =>
          have : ∃ x ∈ l, p x = false := by
            obtain ⟨x, hx, hpx⟩ := h
            rcases List.mem_cons.mp hx with rfl | hx
            · rw [hy] at hpx; cases hpx
            · exact ⟨x, hx, hpx⟩
          simp only [if_true, ih this]

end Remudero.Lib
