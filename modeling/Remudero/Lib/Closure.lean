import Mathlib

/-! # Closing a set by repeated passes

A finite list of items is given, each with a key and the keys it uses.  Starting from a set of
held keys, one `pass` walks the list once and holds every item that uses a held key; the passes
are repeated until one holds nothing new (`close`).

* `Reached` is the set meant: the roots, and every item with a use that is reached.
* `mem_close_iff`: with as many passes as there are items the loop has stopped, and the held
  keys are exactly the reached ones, whatever the order of the list.
* `mem_close_iff_root_or_added`: what is held was a root or is the key of an item added. -/

namespace Remudero.Lib

variable {ι κ : Type*} (key : ι → κ) (uses : ι → List κ)

/-- A root, or the key of an item one of whose uses is reached. -/
inductive Reached (all : List ι) (roots : κ → Prop) : κ → Prop
  | root {k : κ} : roots k → Reached all roots k
  | use {t : ι} {d : κ} : t ∈ all → d ∈ uses t → Reached all roots d → Reached all roots (key t)

variable [DecidableEq κ]

/-- One pass: the held keys after it and the items it added, in order. -/
def pass (held : List κ) : List ι → List κ × List ι
  | [] => (held, [])
  | t :: ts =>
      if key t ∈ held ∨ ¬ ∃ d ∈ uses t, d ∈ held then pass held ts
      else
        let (held', added) := pass (key t :: held) ts
        (held', t :: added)

/-- Passes until one adds nothing, at most `fuel` of them. -/
def close (all : List ι) : ℕ → List κ → List κ × List ι
  | 0, held => (held, [])
  | fuel + 1, held =>
      match pass key uses held all with
      | (held', []) => (held', [])
      | (held', t :: added) =>
          let (held'', more) := close all fuel held'
          (held'', t :: added ++ more)

variable {key uses} {all ts : List ι} {held roots : List κ} {k : κ}

theorem mem_pass_iff : k ∈ (pass key uses held ts).1 ↔
    k ∈ held ∨ ∃ t ∈ (pass key uses held ts).2, key t = k := by
  induction ts generalizing held with
  | nil => simp [pass]
  | cons t ts ih =>
      unfold pass
      split
      · exact ih
      · simp only [ih, List.mem_cons, exists_eq_or_imp]
        constructor
        · rintro ((rfl | hk) | hk)
          · exact .inr (.inl rfl)
          · exact .inl hk
          · exact .inr (.inr hk)
        · rintro (hk | rfl | hk)
          · exact .inl (.inr hk)
          · exact .inl (.inl rfl)
          · exact .inr hk

theorem pass_subset : (pass key uses held ts).2 ⊆ ts := by
  induction ts generalizing held with
  | nil => simp [pass]
  | cons t ts ih =>
      unfold pass
      split
      · exact List.subset_cons_of_subset t ih
      · exact List.cons_subset_cons t ih

/-- What a pass adds was not held before it. -/
theorem pass_added_fresh {t : ι} (h : t ∈ (pass key uses held ts).2) : key t ∉ held := by
  induction ts generalizing held with
  | nil => simp [pass] at h
  | cons u ts ih =>
      unfold pass at h
      split at h
      · exact ih h
      next hu =>
        push Not at hu
        rcases List.mem_cons.mp h with rfl | h
        · exact hu.1
        · exact fun hk => ih h (List.mem_cons_of_mem _ hk)

/-- A pass that adds nothing leaves nothing to add. -/
theorem pass_closed (h : (pass key uses held ts).2 = []) :
    (pass key uses held ts).1 = held ∧ ∀ t ∈ ts, ∀ d ∈ uses t, d ∈ held → key t ∈ held := by
  induction ts with
  | nil => simp [pass]
  | cons t ts ih =>
      unfold pass at h ⊢
      split at h
      next ht =>
        rw [if_pos ht]
        obtain ⟨h1, h2⟩ := ih h
        refine ⟨h1, fun u hu d hd hheld => ?_⟩
        rcases List.mem_cons.mp hu with rfl | hu
        · exact ht.resolve_right fun hno => hno ⟨d, hd, hheld⟩
        · exact h2 u hu d hd hheld
      · simp at h

theorem pass_reached {P : κ → Prop} (hts : ∀ t ∈ ts, ∀ d ∈ uses t, P d → P (key t))
    (hheld : ∀ k ∈ held, P k) : ∀ k ∈ (pass key uses held ts).1, P k := by
  induction ts generalizing held with
  | nil => exact hheld
  | cons t ts ih =>
      have hts' : ∀ u ∈ ts, ∀ d ∈ uses u, P d → P (key u) := fun u hu => hts u (List.mem_cons_of_mem _ hu)
      unfold pass
      split
      · exact ih hts' hheld
      next ht =>
        push Not at ht
        obtain ⟨-, d, hd, hdh⟩ := ht
        refine ih hts' fun k hk => ?_
        rcases List.mem_cons.mp hk with rfl | hk
        · exact hts t List.mem_cons_self d hd (hheld d hdh)
        · exact hheld k hk

/-- The number of items not held yet. -/
def unheld (key : ι → κ) (all : List ι) (held : List κ) : ℕ := all.countP fun t => key t ∉ held

theorem unheld_le_length : unheld key all held ≤ all.length := List.countP_le_length

theorem unheld_pass_lt (h : (pass key uses held all).2 ≠ []) :
    unheld key all (pass key uses held all).1 < unheld key all held := by
  obtain ⟨t, ht⟩ := List.exists_mem_of_ne_nil _ h
  have hall := pass_subset ht
  have hfresh := pass_added_fresh ht
  have hin : key t ∈ (pass key uses held all).1 := mem_pass_iff.mpr (.inr ⟨t, ht, rfl⟩)
  have hsub : ∀ k, k ∈ held → k ∈ (pass key uses held all).1 := fun k hk => mem_pass_iff.mpr (.inl hk)
  obtain ⟨l, r, rfl⟩ := List.append_of_mem hall
  generalize (pass key uses held (l ++ t :: r)).1 = after at hin hsub
  have hmono : ∀ m : List ι, unheld key m after ≤ unheld key m held := by
    intro m
    refine List.countP_mono_left fun u _ hu => ?_
    simp only [decide_eq_true_eq] at hu ⊢
    exact fun hk => hu (hsub _ hk)
  have hl := hmono l
  have hr := hmono r
  unfold unheld at hl hr ⊢
  rw [List.countP_append, List.countP_append, List.countP_cons, List.countP_cons]
  simp only [hin, hfresh, not_true_eq_false, not_false_eq_true, decide_true, decide_false,
    Bool.false_eq_true, if_true, if_false]
  omega

theorem mem_close_iff_root_or_added {fuel : ℕ} : k ∈ (close key uses all fuel held).1 ↔
    k ∈ held ∨ ∃ t ∈ (close key uses all fuel held).2, key t = k := by
  induction fuel generalizing held with
  | zero => simp [close]
  | succ fuel ih =>
      have hpass : k ∈ (pass key uses held all).1 ↔
          k ∈ held ∨ ∃ t ∈ (pass key uses held all).2, key t = k := mem_pass_iff
      unfold close
      split
      next held' hp =>
        rw [hp] at hpass
        exact hpass
      next held' t added hp =>
        rw [hp] at hpass
        simp only [ih, List.mem_append]
        rw [hpass]
        constructor
        · rintro ((hk | ⟨u, hu, rfl⟩) | ⟨u, hu, rfl⟩)
          · exact .inl hk
          · exact .inr ⟨u, .inl hu, rfl⟩
          · exact .inr ⟨u, .inr hu, rfl⟩
        · rintro (hk | ⟨u, hu | hu, rfl⟩)
          · exact .inl (.inl hk)
          · exact .inl (.inr ⟨u, hu, rfl⟩)
          · exact .inr ⟨u, hu, rfl⟩

theorem close_reached {fuel : ℕ} {P : κ → Prop} (hall : ∀ t ∈ all, ∀ d ∈ uses t, P d → P (key t))
    (hheld : ∀ k ∈ held, P k) : ∀ k ∈ (close key uses all fuel held).1, P k := by
  induction fuel generalizing held with
  | zero => exact hheld
  | succ fuel ih =>
      have hpass := pass_reached hall hheld
      unfold close
      split
      next held' hp =>
        rw [hp] at hpass
        exact hpass
      next held' t added hp =>
        rw [hp] at hpass
        exact ih hpass

/-- With more passes than items left, the loop has stopped at a closed set. -/
theorem close_closed {fuel : ℕ} (h : unheld key all held < fuel) :
    ∀ t ∈ all, ∀ d ∈ uses t, d ∈ (close key uses all fuel held).1 →
      key t ∈ (close key uses all fuel held).1 := by
  induction fuel generalizing held with
  | zero => omega
  | succ fuel ih =>
      have hlt : (pass key uses held all).2 ≠ [] →
          unheld key all (pass key uses held all).1 < unheld key all held := unheld_pass_lt
      have hclosed : (pass key uses held all).2 = [] → (pass key uses held all).1 = held ∧
          ∀ t ∈ all, ∀ d ∈ uses t, d ∈ held → key t ∈ held := pass_closed
      unfold close
      split
      next held' hp =>
        rw [hp] at hclosed
        obtain ⟨h1, h2⟩ := hclosed rfl
        rw [h1]
        exact h2
      next held' t added hp =>
        rw [hp] at hlt
        have hlt' : unheld key all held' < unheld key all held := hlt (List.cons_ne_nil _ _)
        exact ih (by omega)

theorem mem_close_iff : k ∈ (close key uses all (all.length + 1) roots).1 ↔
    Reached key uses all (· ∈ roots) k := by
  constructor
  · refine close_reached ?_ (fun k hk => .root hk) k
    intro t ht d hd hr
    exact .use ht hd hr
  · intro h
    induction h with
    | root hk => exact mem_close_iff_root_or_added.mpr (.inl hk)
    | use ht hd _ ih =>
        exact close_closed (Nat.lt_succ_of_le unheld_le_length) _ ht _ hd ih

end Remudero.Lib
