import Mathlib

/-! # Service in order of arrival

Some servers take jobs one after the other, each job as soon as a server is free (`Served`).  A list of the times at which
the servers become free is enough to say when: the next job starts at the least of them, which its duration then raises
(`raiseLeast`).  `Represents` is what such a list says of the jobs, and `Represents.earliest` that the least of its times is
the earliest at which a server is free. -/

namespace Remudero.Lib

variable {τ : Type*} [AddCommMonoid τ] [LinearOrder τ]

/-- The jobs that have not ended at `t`. -/
def unfinished (ends : List τ) (t : τ) : ℕ := ends.countP (t < ·)

/-- `t` is the first time at which one of `m` servers is free. -/
structure Earliest (m : ℕ) (ends : List τ) (t : τ) : Prop where
  free : unfinished ends t < m
  first : ∀ u < t, m ≤ unfinished ends u

/-- The jobs start one after the other, each when a server is free for it. -/
inductive Served (m : ℕ) : List τ → List τ → List τ → Prop
  | nil (ends : List τ) : Served m ends [] ends
  | cons {ends : List τ} {start duration : τ} {durations after : List τ} (hstart : Earliest m ends start)
      (hrest : Served m (ends ++ [start + duration]) durations after) : Served m ends (duration :: durations) after

/-- `Math.min` of a list that is not empty. -/
def least : List τ → τ
  | [] => 0
  | [a] => a
  | a :: b :: l => min a (least (b :: l))

theorem least_le {l : List τ} {a : τ} (h : a ∈ l) : least l ≤ a := by
  induction l with
  | nil => cases h
  | cons b l ih =>
      cases l with
      | nil => exact (List.mem_singleton.mp h).ge
      | cons c l =>
          obtain rfl | ha := List.mem_cons.mp h
          · exact min_le_left _ _
          · exact (min_le_right _ _).trans (ih ha)

theorem least_mem {l : List τ} (h : l ≠ []) : least l ∈ l := by
  induction l with
  | nil => exact absurd rfl h
  | cons b l ih =>
      cases l with
      | nil => exact List.mem_cons_self
      | cons c l =>
          show min b (least (c :: l)) ∈ b :: c :: l
          rcases min_choice b (least (c :: l)) with hmin | hmin
          · rw [hmin]
            exact List.mem_cons_self
          · rw [hmin]
            exact List.mem_cons_of_mem b (ih (List.cons_ne_nil c l))

/-- The first of the least times, raised. -/
def raiseLeast (free : List τ) (duration : τ) : List τ :=
  free.set (free.idxOf (least free)) (least free + duration)

theorem perm_raiseLeast {free : List τ} (h : free ≠ []) (duration : τ) :
    (least free :: raiseLeast free duration).Perm ((least free + duration) :: free) := by
  have hmem := least_mem h
  unfold raiseLeast
  generalize least free = a at hmem
  clear h
  induction free with
  | nil => cases hmem
  | cons b free ih =>
      by_cases hb : b = a
      · subst hb
        rw [List.idxOf_cons_self, List.set_cons_zero]
        exact List.Perm.swap _ _ _
      · have ha : a ∈ free := (List.mem_cons.mp hmem).resolve_left (Ne.symm hb)
        rw [List.idxOf_cons_ne free hb, List.set_cons_succ]
        exact (List.Perm.swap b a _).trans (((ih ha).cons b).trans (List.Perm.swap _ b free))

/-- The times at which the servers become free, and the ends of the jobs. -/
structure Represents (m : ℕ) (free ends : List τ) : Prop where
  length : free.length = m
  after : ∀ t, least free ≤ t → unfinished ends t = unfinished free t
  before : ∀ t < least free, m ≤ unfinished ends t

variable {m : ℕ} {free ends : List τ}

theorem unfinished_lt_length (h : free ≠ []) : unfinished free (least free) < free.length := by
  refine lt_of_le_of_ne List.countP_le_length fun heq => ?_
  have hall := List.countP_eq_length.mp heq (least free) (least_mem h)
  simp at hall

theorem unfinished_eq_length {t : τ} (h : t < least free) : unfinished free t = free.length := by
  refine List.countP_eq_length.mpr fun a ha => ?_
  exact decide_eq_true (lt_of_lt_of_le h (least_le ha))

theorem Represents.earliest (h : Represents m free ends) (hne : free ≠ []) : Earliest m ends (least free) where
  free := by
    rw [h.after _ le_rfl, ← h.length]
    exact unfinished_lt_length hne
  first := h.before

section ordered

variable [CanonicallyOrderedAdd τ]

theorem Represents.raiseLeast (h : Represents m free ends) (hne : free ≠ []) (duration : τ) :
    Represents m (raiseLeast free duration) (ends ++ [least free + duration]) := by
  have hperm := perm_raiseLeast hne duration
  have hlength : (Lib.raiseLeast free duration).length = m := by
    have := hperm.length_eq
    rw [List.length_cons, List.length_cons] at this
    rw [← h.length]
    omega
  have hmono : least free ≤ least (Lib.raiseLeast free duration) := by
    have hne' : Lib.raiseLeast free duration ≠ [] := by
      intro hnil
      rw [hnil, ← h.length] at hlength
      exact hne (List.length_eq_zero_iff.mp hlength.symm)
    rcases List.mem_cons.mp (hperm.subset (List.mem_cons_of_mem _ (least_mem hne'))) with heq | hmem
    · rw [heq]
      exact le_self_add
    · exact least_le hmem
  -- from the start of the job on, both sides count it until it ends
  have hafter : ∀ t, least free ≤ t →
      unfinished (ends ++ [least free + duration]) t = unfinished (Lib.raiseLeast free duration) t := by
    intro t ht
    have hcount := hperm.countP_eq fun a => decide (t < a)
    rw [List.countP_cons, List.countP_cons, if_neg (by simpa using ht)] at hcount
    have hends := h.after t ht
    unfold unfinished at hends ⊢
    rw [List.countP_append, hends, List.countP_singleton]
    omega
  refine ⟨hlength, fun t ht => hafter t (hmono.trans ht), fun t ht => ?_⟩
  by_cases hstart : least free ≤ t
  · rw [hafter t hstart, unfinished_eq_length ht, hlength]
  · have hbefore := h.before t (not_le.mp hstart)
    unfold unfinished at hbefore ⊢
    rw [List.countP_append]
    exact hbefore.trans (Nat.le_add_right _ _)

/-- The whole line, from the times of the servers. -/
theorem Represents.served (hm : 0 < m) (durations : List τ) (h : Represents m free ends) :
    ∃ after, Served m ends durations after ∧ Earliest m after (least (durations.foldl Lib.raiseLeast free)) := by
  induction durations generalizing free ends with
  | nil =>
      have hne : free ≠ [] := List.ne_nil_of_length_pos (h.length ▸ hm)
      exact ⟨ends, .nil ends, h.earliest hne⟩
  | cons duration durations ih =>
      have hne : free ≠ [] := List.ne_nil_of_length_pos (h.length ▸ hm)
      obtain ⟨after, hserved, hearliest⟩ := ih (h.raiseLeast hne duration)
      exact ⟨after, .cons (h.earliest hne) hserved, hearliest⟩

/-- Servers that are free from the start. -/
theorem represents_replicate (ends : List τ) (n : ℕ) : Represents (ends.length + n) (ends ++ List.replicate n 0) ends := by
  refine ⟨by rw [List.length_append, List.length_replicate], fun t _ => ?_, fun t ht => ?_⟩
  · unfold unfinished
    have hzeros : (List.replicate n (0 : τ)).countP (t < ·) = 0 := by
      rw [List.countP_eq_zero]
      intro a ha
      simp [List.eq_of_mem_replicate ha]
    rw [List.countP_append, hzeros, Nat.add_zero]
  · have hzero : n = 0 := by
      by_contra hpos
      have hmem : 0 ∈ ends ++ List.replicate n 0 := List.mem_append_right _ (List.mem_replicate.mpr ⟨hpos, rfl⟩)
      exact absurd (lt_of_lt_of_le ht (least_le hmem)) not_lt_zero
    subst hzero
    rw [List.replicate_zero, List.append_nil] at ht
    rw [unfinished_eq_length ht, Nat.add_zero]

end ordered

end Remudero.Lib
