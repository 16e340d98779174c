import Mathlib

/-! # The first of each key

`firstSeen key seen l` keeps the elements of `l` whose key was not met before, in `seen` or earlier
in the list; an element without a key is kept.

* `firstSeen_sublist`: what is kept is a sublist.
* `filter_sublist_firstSeen`: a class of elements whose keys are their own is kept whole.
* `firstSeen_filter`: a filter by key may come before or after.
* `firstSeen_perm`: when no two elements have one key, the order and number of the copies in a list
  does not matter. -/

namespace Remudero.Lib

variable {α κ : Type*} [DecidableEq κ] (key : α → Option κ)

/-- The elements of a list whose key is met for the first time. -/
def firstSeen : List κ → List α → List α
  | _, [] => []
  | seen, a :: l =>
      match key a with
      | none => a :: firstSeen seen l
      | some k => if k ∈ seen then firstSeen seen l else a :: firstSeen (k :: seen) l

theorem firstSeen_sublist (seen : List κ) (l : List α) : (firstSeen key seen l).Sublist l := by
  induction l generalizing seen with
  | nil => exact List.nil_sublist _
  | cons a l ih =>
      unfold firstSeen
      split
      · exact (ih seen).cons_cons a
      · split_ifs
        · exact (ih seen).cons a
        · exact (ih _).cons_cons a

theorem mem_firstSeen_of_key_none {a : α} {l : List α} (seen : List κ) (ha : a ∈ l)
    (hkey : key a = none) : a ∈ firstSeen key seen l := by
  induction l generalizing seen with
  | nil => cases ha
  | cons b l ih =>
      unfold firstSeen
      rcases List.mem_cons.mp ha with rfl | ha
      · simp [hkey]
      · split
        · exact List.mem_cons_of_mem b (ih seen ha)
        · split_ifs
          · exact ih seen ha
          · exact List.mem_cons_of_mem b (ih _ ha)

/-- A list in two parts: the second one is read with the keys of the first. -/
theorem firstSeen_append (seen : List κ) (l₁ l₂ : List α) :
    ∃ seen', (∀ k ∈ seen', k ∈ seen ∨ ∃ a ∈ l₁, key a = some k) ∧
      firstSeen key seen (l₁ ++ l₂) = firstSeen key seen l₁ ++ firstSeen key seen' l₂ := by
  induction l₁ generalizing seen with
  | nil => exact ⟨seen, fun k hk => .inl hk, rfl⟩
  | cons a l₁ ih =>
      rw [List.cons_append]
      cases hk : key a with
      | none =>
          obtain ⟨seen', hseen', heq⟩ := ih seen
          refine ⟨seen', ?_, by simp [firstSeen, hk, heq]⟩
          intro k hk'
          rcases hseen' k hk' with hmem | ⟨b, hb, hbk⟩
          · exact .inl hmem
          · exact .inr ⟨b, List.mem_cons_of_mem a hb, hbk⟩
      | some ka =>
          by_cases hmem : ka ∈ seen
          · obtain ⟨seen', hseen', heq⟩ := ih seen
            refine ⟨seen', ?_, by simp [firstSeen, hk, hmem, heq]⟩
            intro k hk'
            rcases hseen' k hk' with hmem' | ⟨b, hb, hbk⟩
            · exact .inl hmem'
            · exact .inr ⟨b, List.mem_cons_of_mem a hb, hbk⟩
          · obtain ⟨seen', hseen', heq⟩ := ih (ka :: seen)
            refine ⟨seen', ?_, by simp [firstSeen, hk, hmem, heq]⟩
            intro k hk'
            rcases hseen' k hk' with hmem' | ⟨b, hb, hbk⟩
            · rcases List.mem_cons.mp hmem' with rfl | hmem'
              · exact .inr ⟨a, List.mem_cons_self, hk⟩
              · exact .inl hmem'
            · exact .inr ⟨b, List.mem_cons_of_mem a hb, hbk⟩

/-- The elements of a class are kept when none has the key of an element met before it. -/
theorem filter_sublist_firstSeen {p : α → Bool} {seen : List κ} {l : List α}
    (hseen : ∀ a ∈ l, p a = true → ∀ k, key a = some k → k ∉ seen)
    (hown : l.Pairwise fun a b => p b = true → ∀ k, key b = some k → key a ≠ some k) :
    (l.filter p).Sublist (firstSeen key seen l) := by
  induction l generalizing seen with
  | nil => exact List.nil_sublist _
  | cons a l ih =>
      rw [List.pairwise_cons] at hown
      have htail : ∀ b ∈ l, p b = true → ∀ k, key b = some k → k ∉ seen :=
        fun b hb => hseen b (List.mem_cons_of_mem a hb)
      have hkeep : ∀ seen', (l.filter p).Sublist (firstSeen key seen' l) →
          ((a :: l).filter p).Sublist (a :: firstSeen key seen' l) := by
        intro seen' hsub
        rw [List.filter_cons]
        split_ifs
        · exact hsub.cons_cons a
        · exact hsub.cons a
      unfold firstSeen
      split
      · exact hkeep seen (ih htail hown.2)
      · next k hk =>
          split_ifs with hmem
          · -- a repeated key: then `a` is not of the class
            have hpa : p a = false := by
              by_contra hp
              exact hseen a List.mem_cons_self (by simpa using hp) k hk hmem
            rw [List.filter_cons_of_neg (by simp [hpa])]
            exact ih htail hown.2
          · refine hkeep _ (ih ?_ hown.2)
            intro b hb hpb k' hk'
            rw [List.mem_cons, not_or]
            refine ⟨?_, htail b hb hpb k' hk'⟩
            rintro rfl
            exact hown.1 b hb hpb k' hk' hk

/-- A filter that looks at the key only commutes with keeping the first of each key. -/
theorem firstSeen_filter {p : α → Bool} {q : κ → Bool} {seen seen' : List κ} {l : List α}
    (hkey : ∀ a ∈ l, ∃ k, key a = some k ∧ p a = q k)
    (hseen : ∀ k, q k = true → (k ∈ seen ↔ k ∈ seen')) :
    firstSeen key seen (l.filter p) = (firstSeen key seen' l).filter p := by
  induction l generalizing seen seen' with
  | nil => rfl
  | cons a l ih =>
      obtain ⟨k, hk, hp⟩ := hkey a List.mem_cons_self
      have htail : ∀ b ∈ l, ∃ k, key b = some k ∧ p b = q k :=
        fun b hb => hkey b (List.mem_cons_of_mem a hb)
      by_cases hpa : p a = true
      · have hmem : k ∈ seen ↔ k ∈ seen' := hseen k (hp ▸ hpa)
        rw [List.filter_cons_of_pos hpa, firstSeen, firstSeen, hk]
        dsimp only
        by_cases hs : k ∈ seen
        · rw [if_pos hs, if_pos (hmem.mp hs)]
          exact ih htail hseen
        · rw [if_neg hs, if_neg (mt hmem.mpr hs), List.filter_cons_of_pos hpa]
          congr 1
          refine ih htail ?_
          intro k' hk'
          rw [List.mem_cons, List.mem_cons, hseen k' hk']
      · rw [List.filter_cons_of_neg hpa, firstSeen, hk]
        dsimp only
        split_ifs
        · exact ih htail hseen
        · rw [List.filter_cons_of_neg hpa]
          refine ih htail ?_
          intro k' hk'
          have hne : k' ≠ k := by
            rintro rfl
            exact hpa (hp.trans hk')
          rw [List.mem_cons, hseen k' hk']
          simp [hne]

/-- The keys that are kept are those that occur. -/
theorem exists_mem_firstSeen {seen : List κ} {l : List α} {a : α} {k : κ} (ha : a ∈ l)
    (hk : key a = some k) (hnew : k ∉ seen) : ∃ b ∈ firstSeen key seen l, key b = some k := by
  induction l generalizing seen with
  | nil => cases ha
  | cons c l ih =>
      unfold firstSeen
      rcases List.mem_cons.mp ha with rfl | ha
      · rw [hk]
        dsimp only
        rw [if_neg hnew]
        exact ⟨a, List.mem_cons_self, hk⟩
      · split
        · obtain ⟨b, hb, hbk⟩ := ih ha hnew
          exact ⟨b, List.mem_cons_of_mem c hb, hbk⟩
        · next k' hk' =>
            split_ifs
            · exact ih ha hnew
            · by_cases heq : k = k'
              · exact ⟨c, List.mem_cons_self, heq ▸ hk'⟩
              · obtain ⟨b, hb, hbk⟩ := ih ha (List.not_mem_cons_of_ne_of_not_mem heq hnew)
                exact ⟨b, List.mem_cons_of_mem c hb, hbk⟩

theorem not_mem_firstSeen_of_seen {seen : List κ} {l : List α} {a : α} {k : κ} (hk : key a = some k)
    (hseen : k ∈ seen) : a ∉ firstSeen key seen l := by
  induction l generalizing seen with
  | nil => exact List.not_mem_nil
  | cons b l ih =>
      unfold firstSeen
      split
      · next hb =>
          rw [List.mem_cons, not_or]
          refine ⟨?_, ih hseen⟩
          rintro rfl
          rw [hb] at hk
          cases hk
      · next k' hb =>
          split_ifs with hmem
          · exact ih hseen
          · rw [List.mem_cons, not_or]
            refine ⟨?_, ih (List.mem_cons_of_mem k' hseen)⟩
            rintro rfl
            rw [hb, Option.some.injEq] at hk
            exact hmem (hk ▸ hseen)

theorem nodup_firstSeen (seen : List κ) {l : List α} (hkey : ∀ a ∈ l, (key a).isSome) :
    (firstSeen key seen l).Nodup := by
  induction l generalizing seen with
  | nil => exact List.nodup_nil
  | cons a l ih =>
      have hl : ∀ b ∈ l, (key b).isSome := fun b hb => hkey b (List.mem_cons_of_mem a hb)
      unfold firstSeen
      split
      · next hnone =>
          have ha := hkey a List.mem_cons_self
          rw [hnone] at ha
          cases ha
      · next k hk =>
          split_ifs
          · exact ih seen hl
          · exact List.nodup_cons.mpr ⟨not_mem_firstSeen_of_seen key hk List.mem_cons_self, ih _ hl⟩

theorem mem_firstSeen_iff {l : List α} (hkey : ∀ a ∈ l, (key a).isSome)
    (hinj : ∀ a ∈ l, ∀ b ∈ l, key a = key b → a = b) (a : α) : a ∈ firstSeen key [] l ↔ a ∈ l := by
  constructor
  · intro ha
    exact (firstSeen_sublist key [] l).subset ha
  · intro ha
    obtain ⟨k, hk⟩ := Option.isSome_iff_exists.mp (hkey a ha)
    obtain ⟨b, hb, hbk⟩ := exists_mem_firstSeen key ha hk List.not_mem_nil
    have hba : b = a := hinj b ((firstSeen_sublist key [] l).subset hb) a ha (hbk.trans hk.symm)
    rwa [hba] at hb

/-- Lists of the same elements, in any order and multiplicity, keep the same elements when each has
a key of its own. -/
theorem firstSeen_perm {l₁ l₂ : List α} (hmem : ∀ a, a ∈ l₁ ↔ a ∈ l₂) (hkey : ∀ a ∈ l₁, (key a).isSome)
    (hinj : ∀ a ∈ l₁, ∀ b ∈ l₁, key a = key b → a = b) :
    (firstSeen key [] l₁).Perm (firstSeen key [] l₂) := by
  have hkey₂ : ∀ a ∈ l₂, (key a).isSome := fun a ha => hkey a ((hmem a).mpr ha)
  have hinj₂ : ∀ a ∈ l₂, ∀ b ∈ l₂, key a = key b → a = b :=
    fun a ha b hb => hinj a ((hmem a).mpr ha) b ((hmem b).mpr hb)
  rw [List.perm_ext_iff_of_nodup (nodup_firstSeen key [] hkey) (nodup_firstSeen key [] hkey₂)]
  intro a
  rw [mem_firstSeen_iff key hkey hinj, mem_firstSeen_iff key hkey₂ hinj₂, hmem]

end Remudero.Lib
