import Mathlib

/-! # Greedy placement

A list is gone through in order, and an element is placed unless it conflicts with one that was
placed before it.  `fates` gives each element its blocker, if there is one, and `kept` the elements
that are placed.

* `pairwise_kept`: no two placed elements conflict.
* `blocker_placed`: a blocker was placed before and conflicts.
* `fates_mono`: of two conflict relations the larger one defers at least as much, if no element that
  only the larger one defers would have blocked another (`Chain`).  Without that it does not:
  `chain_not_mono`. -/

namespace Remudero.Lib

variable {α : Type*}

/-- Each element with the placed element that defers it. -/
def fates (conflict : α → α → Bool) : List α → List α → List (α × Option α)
  | _, [] => []
  | placed, a :: l =>
      match placed.find? fun b => conflict b a with
      | some b => (a, some b) :: fates conflict placed l
      | none => (a, none) :: fates conflict (placed ++ [a]) l

/-- The elements without a blocker. -/
def kept (fs : List (α × Option α)) : List α :=
  fs.filterMap fun x => if x.2.isNone then some x.1 else none

theorem kept_cons_none (a : α) (fs : List (α × Option α)) : kept ((a, none) :: fs) = a :: kept fs := by
  simp [kept]

theorem kept_cons_some (a b : α) (fs : List (α × Option α)) : kept ((a, some b) :: fs) = kept fs := by
  simp [kept]

section One

variable {conflict : α → α → Bool}

theorem fates_cons_some {placed l : List α} {a b : α}
    (h : (placed.find? fun b => conflict b a) = some b) :
    fates conflict placed (a :: l) = (a, some b) :: fates conflict placed l := by
  rw [fates, h]

theorem fates_cons_none {placed l : List α} {a : α}
    (h : (placed.find? fun b => conflict b a) = none) :
    fates conflict placed (a :: l) = (a, none) :: fates conflict (placed ++ [a]) l := by
  rw [fates, h]

theorem kept_fates_sublist (placed l : List α) : (kept (fates conflict placed l)).Sublist l := by
  induction l generalizing placed with
  | nil => exact List.Sublist.refl _
  | cons a l ih =>
      cases h : placed.find? fun b => conflict b a with
      | some b =>
          rw [fates_cons_some h, kept_cons_some]
          exact (ih placed).cons a
      | none =>
          rw [fates_cons_none h, kept_cons_none]
          exact (ih _).cons_cons a

theorem map_fst_fates (placed l : List α) : (fates conflict placed l).map Prod.fst = l := by
  induction l generalizing placed with
  | nil => rfl
  | cons a l ih =>
      unfold fates
      split
      · rw [List.map_cons, ih]
      · rw [List.map_cons, ih]

/-- No two placed elements conflict. -/
theorem pairwise_kept {placed : List α} (l : List α) (h : placed.Pairwise fun a b => conflict a b = false) :
    (placed ++ kept (fates conflict placed l)).Pairwise fun a b => conflict a b = false := by
  induction l generalizing placed with
  | nil => simpa [fates, kept] using h
  | cons a l ih =>
      unfold fates
      split
      · rw [kept_cons_some]
        exact ih h
      · next hnone =>
          rw [kept_cons_none]
          have hnext : (placed ++ [a]).Pairwise fun a b => conflict a b = false := by
            rw [List.pairwise_append]
            refine ⟨h, List.pairwise_singleton _ _, ?_⟩
            intro b hb c hc
            rw [List.mem_singleton.mp hc]
            simpa using List.find?_eq_none.mp hnone b hb
          have hall := ih hnext
          rwa [List.append_assoc] at hall

/-- A blocker was placed before the element it defers. -/
theorem blocker_placed {placed l : List α} {pre post : List (α × Option α)} {a b : α}
    (h : fates conflict placed l = pre ++ (a, some b) :: post) :
    b ∈ placed ++ kept pre ∧ conflict b a = true := by
  induction l generalizing placed pre with
  | nil => simp [fates] at h
  | cons c l ih =>
      unfold fates at h
      split at h
      · next d hd =>
          cases pre with
          | nil =>
              obtain ⟨hhead, -⟩ := List.cons.inj h
              cases hhead
              have hconflict := List.find?_some hd
              exact ⟨List.mem_append_left _ (List.mem_of_find?_eq_some hd), hconflict⟩
          | cons x pre =>
              obtain ⟨rfl, htail⟩ := List.cons.inj h
              rw [kept_cons_some]
              exact ih htail
      · cases pre with
        | nil =>
            obtain ⟨hhead, -⟩ := List.cons.inj h
            cases hhead
        | cons x pre =>
            obtain ⟨rfl, htail⟩ := List.cons.inj h
            have hb := ih htail
            rw [kept_cons_none]
            rwa [List.append_assoc] at hb

end One

/-! ### Two relations -/

section Two

variable (small large : α → α → Bool)

/-- `a` defers `b` under the larger relation only, `b` defers `c` under the smaller one, and `a` does
not defer `c`. -/
def Chain (a b c : α) : Prop :=
  small a b = false ∧ large a b = true ∧ small b c = true ∧ large a c = false

/-- No chain among the elements, taken in their order. -/
def ChainFree (l : List α) : Prop := ∀ a b c, [a, b, c].Sublist l → ¬ Chain small large a b c

/-- What is placed under both relations after the same elements. -/
structure Tracks (seen placed placed' : List α) : Prop where
  less : ∀ a ∈ placed', a ∈ placed
  met : ∀ a ∈ placed, a ∈ seen
  lost : ∀ b ∈ placed, b ∈ placed' ∨
    ∃ a ∈ placed', [a, b].Sublist seen ∧ small a b = false ∧ large a b = true

variable {small large}

theorem tracks_fates (seen : List α) {placed placed' l : List α}
    (hsub : (seen ++ l).Pairwise fun a b => small a b = true → large a b = true)
    (hfree : ChainFree small large (seen ++ l))
    (h : Tracks small large seen placed placed') :
    List.Forall₂ (fun x y => x.2.isSome = true → y.2.isSome = true)
      (fates small placed l) (fates large placed' l) := by
  induction l generalizing seen placed placed' with
  | nil => exact .nil
  | cons x l ih =>
      have hsplit : seen ++ x :: l = seen ++ [x] ++ l := by simp
      have hpair : ∀ b ∈ seen, small b x = true → large b x = true :=
        fun b hb => (List.pairwise_append.mp hsub).2.2 b hb x List.mem_cons_self
      -- an element deferred under the smaller relation is deferred under the larger one
      have hkeep : ∀ b ∈ placed, small b x = true → ∃ a ∈ placed', large a x = true := by
        intro b hb hbx
        rcases h.lost b hb with hb' | ⟨a, ha, hab, hs, hl⟩
        · exact ⟨b, hb', hpair b (h.met b hb) hbx⟩
        · refine ⟨a, ha, ?_⟩
          by_contra hax
          refine hfree a b x ?_ ⟨hs, hl, hbx, by simpa using hax⟩
          have hlast : [a, b, x].Sublist (seen ++ [x]) := hab.append (List.Sublist.refl [x])
          rw [hsplit]
          exact hlast.trans (List.sublist_append_left _ _)
      rw [hsplit] at hsub hfree
      unfold fates
      cases hold : placed.find? fun b => small b x with
      | some b =>
          have hbx := List.find?_some hold
          obtain ⟨a, ha, hax⟩ := hkeep b (List.mem_of_find?_eq_some hold) hbx
          cases hnew : placed'.find? fun b => large b x with
          | none => exact absurd hax (by simpa using List.find?_eq_none.mp hnew a ha)
          | some c =>
              refine .cons (fun _ => rfl) (ih _ hsub hfree ⟨h.less, ?_, ?_⟩)
              · exact fun d hd => List.mem_append_left _ (h.met d hd)
              · intro d hd
                rcases h.lost d hd with hd' | ⟨a, ha, hab, hs⟩
                · exact .inl hd'
                · exact .inr ⟨a, ha, hab.trans (List.sublist_append_left _ _), hs⟩
      | none =>
          have hfreeX : ∀ b ∈ placed, small b x = false := by
            intro b hb
            simpa using List.find?_eq_none.mp hold b hb
          have hseen : ∀ d ∈ placed ++ [x], d ∈ seen ++ [x] := by
            intro d hd
            rcases List.mem_append.mp hd with hd | hd
            · exact List.mem_append_left _ (h.met d hd)
            · exact List.mem_append_right _ hd
          cases hnew : placed'.find? fun b => large b x with
          | some c =>
              have hc := List.mem_of_find?_eq_some hnew
              have hcx := List.find?_some hnew
              refine .cons (fun _ => rfl) (ih _ hsub hfree ⟨?_, hseen, ?_⟩)
              · exact fun d hd => List.mem_append_left _ (h.less d hd)
              · intro d hd
                rcases List.mem_append.mp hd with hd | hd
                · rcases h.lost d hd with hd' | ⟨a, ha, hab, hs⟩
                  · exact .inl hd'
                  · exact .inr ⟨a, ha, hab.trans (List.sublist_append_left _ _), hs⟩
                · rw [List.mem_singleton.mp hd]
                  refine .inr ⟨c, hc, ?_, hfreeX c (h.less c hc), hcx⟩
                  have hone : [c].Sublist seen :=
                    List.singleton_sublist.mpr (h.met c (h.less c hc))
                  exact hone.append (List.Sublist.refl [x])
          | none =>
              refine .cons (fun hs => by cases hs) (ih _ hsub hfree ⟨?_, hseen, ?_⟩)
              · intro d hd
                rcases List.mem_append.mp hd with hd | hd
                · exact List.mem_append_left _ (h.less d hd)
                · exact List.mem_append_right _ hd
              · intro d hd
                rcases List.mem_append.mp hd with hd | hd
                · rcases h.lost d hd with hd' | ⟨a, ha, hab, hs⟩
                  · exact .inl (List.mem_append_left _ hd')
                  · exact .inr ⟨a, List.mem_append_left _ ha,
                      hab.trans (List.sublist_append_left _ _), hs⟩
                · exact .inl (List.mem_append_right _ hd)

/-- The larger relation defers at least as much. -/
theorem fates_mono {l : List α}
    (hsub : l.Pairwise fun a b => small a b = true → large a b = true)
    (hfree : ChainFree small large l) :
    List.Forall₂ (fun x y => x.2.isSome = true → y.2.isSome = true)
      (fates small [] l) (fates large [] l) := by
  refine tracks_fates [] hsub hfree ⟨?_, ?_, ?_⟩
  · exact fun a ha => absurd ha List.not_mem_nil
  · exact fun a ha => absurd ha List.not_mem_nil
  · exact fun a ha => absurd ha List.not_mem_nil

/-- A chain alone is not deferred alike: its last element is placed under the larger relation. -/
theorem chain_not_mono {a b c : α} (h : Chain small large a b c)
    (hac : small a c = true → large a c = true) :
    ¬ List.Forall₂ (fun x y => x.2.isSome = true → y.2.isSome = true)
      (fates small [] [a, b, c]) (fates large [] [a, b, c]) := by
  obtain ⟨hab, hab', hbc, hac'⟩ := h
  have hsmall : small a c = false := by
    by_contra hs
    rw [hac (by simpa using hs)] at hac'
    cases hac'
  simp [fates, hab, hab', hbc, hac', hsmall]

end Two

end Remudero.Lib
