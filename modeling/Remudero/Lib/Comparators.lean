import Mathlib

/-! # Comparators with a key that may be absent

A comparator goes by a tier, then by a key that some elements lack, then by a tail.  The key decides
only between two elements that have it.  The tier and the tail are transitive, and yet the whole
need not be: an element without the key may stand between two that have it and are ordered the
other way by it.

`strictTotalOn_compareTiered` says that this is the only way to lose transitivity, and
`mergeSort_eq_of_perm` that a comparator that is a strict total order on the elements of a list sorts
every permutation of the list to one and the same list. -/

namespace Remudero.Lib

variable {α β : Type*}

/-! ### Comparators of keys -/

theorem transCmp_on {cmp : β → β → Ordering} (h : Std.TransCmp cmp) (f : α → β) :
    Std.TransCmp fun a b => cmp (f a) (f b) where
  eq_swap := Std.OrientedCmp.eq_swap
  isLE_trans := Std.TransCmp.isLE_trans

theorem transCmp_then {cmp₁ cmp₂ : α → α → Ordering} (h₁ : Std.TransCmp cmp₁)
    (h₂ : Std.TransCmp cmp₂) : Std.TransCmp fun a b => (cmp₁ a b).then (cmp₂ a b) :=
  inferInstanceAs (Std.TransCmp (compareLex cmp₁ cmp₂))

theorem then_of_ne_eq {o : Ordering} (h : o ≠ .eq) (p : Ordering) : o.then p = o := by
  cases o with
  | eq => exact absurd rfl h
  | lt => rfl
  | gt => rfl

theorem transCmp_eq : Std.TransCmp fun _ _ : α => Ordering.eq where
  eq_swap := rfl
  isLE_trans _ _ := rfl

/-! ### Strict total orders -/

/-- On the elements of `S` the comparator is a strict total order. -/
structure StrictTotalOn (cmp : α → α → Ordering) (S : Set α) : Prop where
  antisymm : ∀ a ∈ S, ∀ b ∈ S, cmp a b = (cmp b a).swap
  trans : ∀ a ∈ S, ∀ b ∈ S, ∀ c ∈ S, cmp a b = .lt → cmp b c = .lt → cmp a c = .lt
  ne_eq : ∀ a ∈ S, ∀ b ∈ S, a ≠ b → cmp a b ≠ .eq

section Sorting

variable {cmp : α → α → Ordering} {S : Set α}

theorem StrictTotalOn.congr {cmp' : α → α → Ordering} (h : StrictTotalOn cmp S)
    (heq : ∀ a ∈ S, ∀ b ∈ S, cmp a b = cmp' a b) : StrictTotalOn cmp' S where
  antisymm a ha b hb := by rw [← heq a ha b hb, ← heq b hb a ha, h.antisymm a ha b hb]
  trans a ha b hb c hc := by
    rw [← heq a ha b hb, ← heq b hb c hc, ← heq a ha c hc]
    exact h.trans a ha b hb c hc
  ne_eq a ha b hb := by
    rw [← heq a ha b hb]
    exact h.ne_eq a ha b hb

theorem StrictTotalOn.eq_of_eq (h : StrictTotalOn cmp S) {a b : α} (ha : a ∈ S) (hb : b ∈ S)
    (heq : cmp a b = .eq) : a = b := by
  by_contra hne
  exact h.ne_eq a ha b hb hne heq

theorem StrictTotalOn.le_trans (h : StrictTotalOn cmp S) {a b c : α} (ha : a ∈ S) (hb : b ∈ S)
    (hc : c ∈ S) (hab : cmp a b ≠ .gt) (hbc : cmp b c ≠ .gt) : cmp a c ≠ .gt := by
  cases h₁ : cmp a b with
  | gt => exact absurd h₁ hab
  | eq =>
      rw [h.eq_of_eq ha hb h₁]
      exact hbc
  | lt =>
      cases h₂ : cmp b c with
      | gt => exact absurd h₂ hbc
      | eq =>
          rw [← h.eq_of_eq hb hc h₂]
          exact hab
      | lt =>
          rw [h.trans a ha b hb c hc h₁ h₂]
          simp

theorem StrictTotalOn.le_total (h : StrictTotalOn cmp S) {a b : α} (ha : a ∈ S) (hb : b ∈ S) :
    cmp a b ≠ .gt ∨ cmp b a ≠ .gt := by
  have hswap := h.antisymm a ha b hb
  cases hba : cmp b a with
  | gt =>
      rw [hba] at hswap
      exact .inl (by rw [hswap]; decide)
  | eq => exact .inr (by decide)
  | lt => exact .inr (by decide)

/-- The sorted list is sorted, where the comparator is transitive on the elements only. -/
theorem pairwise_mergeSort_of_total {l : List α} (h : StrictTotalOn cmp {a | a ∈ l}) :
    (l.mergeSort fun a b => cmp a b != .gt).Pairwise fun a b => cmp a b ≠ .gt := by
  -- the elements are taken with their membership, so that the order laws hold of all of them
  let le : {a // a ∈ l} → {a // a ∈ l} → Bool := fun a b => cmp a.1 b.1 != .gt
  have hmap : (l.attach.mergeSort le).map Subtype.val = l.mergeSort fun a b => cmp a b != .gt := by
    have hl := List.map_mergeSort (f := Subtype.val) (r := le)
      (s := fun a b => cmp a b != .gt) (l := l.attach) (fun _ _ _ _ => rfl)
    rwa [List.attach_map_subtype_val] at hl
  have hsorted : (l.attach.mergeSort le).Pairwise fun a b => le a b = true := by
    refine List.pairwise_mergeSort ?_ ?_ l.attach
    · intro a b c hab hbc
      simp only [le, bne_iff_ne, ne_eq] at hab hbc ⊢
      exact h.le_trans a.2 b.2 c.2 hab hbc
    · intro a b
      simp only [le, Bool.or_eq_true, bne_iff_ne]
      exact h.le_total a.2 b.2
  rw [← hmap, List.pairwise_map]
  exact hsorted.imp fun hab => by simpa [le] using hab

theorem mergeSort_eq_of_perm {l l' : List α} (h : StrictTotalOn cmp {a | a ∈ l}) (hp : l'.Perm l) :
    (l'.mergeSort fun a b => cmp a b != .gt) = l.mergeSort fun a b => cmp a b != .gt := by
  have h' : StrictTotalOn cmp {a | a ∈ l'} := by
    have hset : {a | a ∈ l'} = {a | a ∈ l} := Set.ext fun a => hp.mem_iff
    rw [hset]
    exact h
  refine List.Perm.eq_of_pairwise ?_ (pairwise_mergeSort_of_total h')
    (pairwise_mergeSort_of_total h)
    ((List.mergeSort_perm l' _).trans (hp.trans (List.mergeSort_perm l _).symm))
  intro a b ha hb hab hba
  have ha' : a ∈ l := hp.mem_iff.mp ((List.mergeSort_perm l' _).mem_iff.mp ha)
  have hb' : b ∈ l := (List.mergeSort_perm l _).mem_iff.mp hb
  refine h.eq_of_eq ha' hb' ?_
  have hswap := h.antisymm a ha' b hb'
  cases hcmp : cmp a b with
  | eq => rfl
  | gt => exact absurd hcmp hab
  | lt =>
      rw [hcmp] at hswap
      exact absurd (Ordering.swap_inj.mp hswap.symm) hba

end Sorting

/-! ### A key that may be absent -/

/-- The larger key comes first, where both elements have one. -/
def comparePresent [LinearOrder β] (key : α → Option β) (a b : α) : Ordering :=
  match key a, key b with
  | some x, some y => compare y x
  | _, _ => .eq

/-- By the tier, then by the key, then by the tail. -/
def compareTiered [LinearOrder β] (tier : α → α → Ordering) (key : α → Option β)
    (tail : α → α → Ordering) (a b : α) : Ordering :=
  (tier a b).then ((comparePresent key a b).then (tail a b))

/-- An element without the key that stands between two of its tier that have it: the first of them
has at least the key of the last. -/
def Graded [LinearOrder β] (tier : α → α → Ordering) (key : α → Option β)
    (tail : α → α → Ordering) (S : Set α) : Prop :=
  ∀ a ∈ S, ∀ b ∈ S, ∀ c ∈ S, ∀ x z, tier a b = .eq → tier b c = .eq →
    tail a b = .lt → tail b c = .lt → key a = some x → key b = none → key c = some z → z ≤ x

section Tiered

variable [LinearOrder β] {tier tail : α → α → Ordering} {key : α → Option β} {S : Set α}

theorem comparePresent_swap (a b : α) :
    comparePresent key a b = (comparePresent key b a).swap := by
  unfold comparePresent
  cases key a with
  | none => cases key b <;> rfl
  | some x =>
      cases key b with
      | none => rfl
      | some y => exact Std.OrientedOrd.eq_swap

theorem comparePresent_some {a b : α} {x y : β} (ha : key a = some x) (hb : key b = some y) :
    comparePresent key a b = compare y x := by
  simp only [comparePresent, ha, hb]

theorem comparePresent_left {a b : α} (ha : key a = none) : comparePresent key a b = .eq := by
  simp only [comparePresent, ha]

theorem comparePresent_right {a b : α} (hb : key b = none) : comparePresent key a b = .eq := by
  cases ha : key a <;> simp only [comparePresent, ha, hb]

theorem compareTiered_swap [Std.OrientedCmp tier] [Std.OrientedCmp tail] (a b : α) :
    compareTiered tier key tail a b = (compareTiered tier key tail b a).swap := by
  unfold compareTiered
  rw [Ordering.swap_then, Ordering.swap_then, ← Std.OrientedCmp.eq_swap, ← comparePresent_swap,
    ← Std.OrientedCmp.eq_swap]

/-- Within a tier: the key and the tail together. -/
theorem within_trans [Std.TransCmp tail] (h : Graded tier key tail S)
    (hsep : ∀ a ∈ S, ∀ b ∈ S, tail a b = .eq → a = b) {a b c : α} (ha : a ∈ S) (hb : b ∈ S)
    (hc : c ∈ S) (hab : tier a b = .eq) (hbc : tier b c = .eq) (hca : tier c a = .eq)
    (h₁ : (comparePresent key a b).then (tail a b) = .lt)
    (h₂ : (comparePresent key b c).then (tail b c) = .lt) :
    (comparePresent key a c).then (tail a c) = .lt := by
  -- the tail decides wherever a key is missing; the cases left are the three places of the gap
  have htail : tail a b = .lt → tail b c = .lt → tail a c = .lt := Std.TransCmp.lt_trans
  cases hka : key a with
  | none =>
      rw [comparePresent_left hka, Ordering.eq_then] at h₁ ⊢
      cases hkb : key b with
      | none =>
          rw [comparePresent_left hkb, Ordering.eq_then] at h₂
          exact htail h₁ h₂
      | some y =>
          cases hkc : key c with
          | none =>
              rw [comparePresent_right hkc, Ordering.eq_then] at h₂
              exact htail h₁ h₂
          | some z =>
              rw [comparePresent_some hkb hkc, Ordering.then_eq_lt, compare_lt_iff_lt] at h₂
              rcases h₂ with hzy | ⟨-, h₂⟩
              · cases hac : tail a c with
                | lt => rfl
                | eq =>
                    rw [hsep a ha c hc hac, hkc] at hka
                    cases hka
                | gt =>
                    have hca' : tail c a = .lt := Std.OrientedCmp.lt_of_gt hac
                    exact absurd (h c hc a ha b hb z y hca hab hca' h₁ hkc hka hkb) (not_le.mpr hzy)
              · exact htail h₁ h₂
  | some x =>
      cases hkc : key c with
      | none =>
          rw [comparePresent_right hkc, Ordering.eq_then] at h₂ ⊢
          cases hkb : key b with
          | none =>
              rw [comparePresent_right hkb, Ordering.eq_then] at h₁
              exact htail h₁ h₂
          | some y =>
              rw [comparePresent_some hka hkb, Ordering.then_eq_lt, compare_lt_iff_lt] at h₁
              rcases h₁ with hyx | ⟨-, h₁⟩
              · cases hac : tail a c with
                | lt => rfl
                | eq =>
                    rw [← hsep a ha c hc hac, hka] at hkc
                    cases hkc
                | gt =>
                    have hca' : tail c a = .lt := Std.OrientedCmp.lt_of_gt hac
                    exact absurd (h b hb c hc a ha y x hbc hca h₂ hca' hkb hkc hka) (not_le.mpr hyx)
              · exact htail h₁ h₂
      | some z =>
          rw [comparePresent_some hka hkc, Ordering.then_eq_lt, compare_lt_iff_lt, compare_eq_iff_eq]
          cases hkb : key b with
          | none =>
              rw [comparePresent_right hkb, Ordering.eq_then] at h₁
              rw [comparePresent_left hkb, Ordering.eq_then] at h₂
              rcases (h a ha b hb c hc x z hab hbc h₁ h₂ hka hkb hkc).lt_or_eq with hlt | heq
              · exact .inl hlt
              · exact .inr ⟨heq, htail h₁ h₂⟩
          | some y =>
              rw [comparePresent_some hka hkb, Ordering.then_eq_lt, compare_lt_iff_lt,
                compare_eq_iff_eq] at h₁
              rw [comparePresent_some hkb hkc, Ordering.then_eq_lt, compare_lt_iff_lt,
                compare_eq_iff_eq] at h₂
              rcases h₁ with hyx | ⟨rfl, h₁⟩
              · rcases h₂ with hzy | ⟨rfl, h₂⟩
                · exact .inl (hzy.trans hyx)
                · exact .inl hyx
              · rcases h₂ with hzy | ⟨rfl, h₂⟩
                · exact .inl hzy
                · exact .inr ⟨rfl, htail h₁ h₂⟩

theorem compareTiered_trans [Std.TransCmp tier] [Std.TransCmp tail] (h : Graded tier key tail S)
    (hsep : ∀ a ∈ S, ∀ b ∈ S, tail a b = .eq → a = b) {a b c : α} (ha : a ∈ S) (hb : b ∈ S)
    (hc : c ∈ S) (h₁ : compareTiered tier key tail a b = .lt)
    (h₂ : compareTiered tier key tail b c = .lt) : compareTiered tier key tail a c = .lt := by
  unfold compareTiered at h₁ h₂ ⊢
  rw [Ordering.then_eq_lt] at h₁ h₂ ⊢
  rcases h₁ with h₁ | ⟨hab, h₁⟩
  · rcases h₂ with h₂ | ⟨hbc, -⟩
    · exact .inl (Std.TransCmp.lt_trans h₁ h₂)
    · exact .inl (Std.TransCmp.lt_of_lt_of_eq h₁ hbc)
  · rcases h₂ with h₂ | ⟨hbc, h₂⟩
    · exact .inl (Std.TransCmp.lt_of_eq_of_lt hab h₂)
    · have hac : tier a c = .eq := Std.TransCmp.eq_trans hab hbc
      exact .inr ⟨hac, within_trans h hsep ha hb hc hab hbc (Std.OrientedCmp.eq_symm hac) h₁ h₂⟩

theorem compareTiered_self [Std.TransCmp tier] [Std.TransCmp tail] (a : α) : compareTiered tier key tail a a = .eq := by
  have htier : tier a a = .eq := Std.ReflCmp.compare_self
  have htail : tail a a = .eq := Std.ReflCmp.compare_self
  rw [compareTiered, htier, htail]
  cases hkey : key a with
  | none => rw [comparePresent_left hkey]; rfl
  | some x => rw [comparePresent_some hkey hkey, compare_eq_iff_eq.mpr rfl]; rfl

/-- The comparator is a strict total order exactly where the elements are graded. -/
theorem strictTotalOn_compareTiered [Std.TransCmp tier] [Std.TransCmp tail]
    (hsep : ∀ a ∈ S, ∀ b ∈ S, tail a b = .eq → a = b) :
    StrictTotalOn (compareTiered tier key tail) S ↔ Graded tier key tail S := by
  constructor
  · intro h a ha b hb c hc x z hab hbc h₁ h₂ hka hkb hkc
    have hac : tier a c = .eq := Std.TransCmp.eq_trans hab hbc
    have hlt : compareTiered tier key tail a c = .lt := by
      refine h.trans a ha b hb c hc ?_ ?_
      · rw [compareTiered, hab, comparePresent_right hkb, h₁]
        rfl
      · rw [compareTiered, hbc, comparePresent_left hkb, h₂]
        rfl
    rw [compareTiered, hac, comparePresent_some hka hkc, Ordering.eq_then, Ordering.then_eq_lt,
      compare_lt_iff_lt, compare_eq_iff_eq] at hlt
    rcases hlt with hlt | ⟨heq, -⟩
    · exact hlt.le
    · exact heq.le
  · intro h
    refine ⟨fun a _ b _ => compareTiered_swap a b,
      fun a ha b hb c hc => compareTiered_trans h hsep ha hb hc, ?_⟩
    intro a ha b hb hne heq
    rw [compareTiered, Ordering.then_eq_eq, Ordering.then_eq_eq] at heq
    exact hne (hsep a ha b hb heq.2.2)

end Tiered

end Remudero.Lib
