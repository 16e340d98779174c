import Remudero.Drain.Overlap
import Remudero.Lib.Glob
import Remudero.Lib.Record

/-! # Globs that describe one path

`globsIntersect` of `lib/dispatch-overlap.ts` with the memo table its search keeps.  `Drain/Overlap.lean` has
the same search without a table; here the table is threaded through the calls, in the order the source
makes them, and `search_spec` says that it changes nothing.

The search is exact: `globsIntersect_iff` gives the words that both patterns match. -/

namespace Remudero.Overlap

open Remudero.Lib

/-! ### The search with its table -/

/-- The answers so far, by the two positions. -/
abbrev Memo := List ((ℕ × ℕ) × Bool)

/-- Either call is made only if the one before it answers no. -/
def orElse (first : Bool × Memo) (second : Memo → Bool × Memo) : Bool × Memo :=
  if first.1 then first else second first.2

/-- `patternsIntersect` at two positions. -/
def search (a b : Text) (i j : ℕ) (memo : Memo) : Bool × Memo :=
  if i = a.length ∧ j = b.length then (true, memo)
  else match entryOf (i, j) memo with
    | some cached => (cached, memo)
    | none =>
        let r :=
          if ha : i < a.length ∧ a[i]? = some '*' then
            orElse (search a b (i + 1) j memo) fun memo =>
              if hb : j < b.length then search a b i (j + 1) memo else (false, memo)
          else if hb : j < b.length ∧ b[j]? = some '*' then
            orElse (search a b i (j + 1) memo) fun memo =>
              if ha : i < a.length then search a b (i + 1) j memo else (false, memo)
          else if hab : i < a.length ∧ j < b.length ∧ a[i]? = b[j]? then search a b (i + 1) (j + 1) memo
          else (false, memo)
        (r.1, ((i, j), r.1) :: r.2)
termination_by (a.length - i) + (b.length - j)

def globsIntersectMemo (a b : Text) : Bool :=
  let na := normalizePath a
  let nb := normalizePath b
  if na.all (· ≠ '*') && nb.all (· ≠ '*') then na = nb else (search na nb 0 0 []).1

/-- Every answer in the table is that of the search without one. -/
def Sound (a b : Text) (memo : Memo) : Prop :=
  ∀ i j v, entryOf (i, j) memo = some v → v = patternsIntersect (a.drop i) (b.drop j)

theorem Sound.cons {a b : Text} {memo : Memo} (h : Sound a b memo) {i j : ℕ} {v : Bool}
    (hv : v = patternsIntersect (a.drop i) (b.drop j)) : Sound a b (((i, j), v) :: memo) := by
  intro i' j' v' hv'
  by_cases hkey : (i, j) = (i', j')
  · obtain ⟨rfl, rfl⟩ := Prod.mk.inj hkey
    rw [entryOf_cons_self, Option.some.injEq] at hv'
    rw [← hv', hv]
  · rw [entryOf_cons_of_ne _ hkey] at hv'
    exact h i' j' v' hv'

/-- What the search answers, and the table it leaves. -/
def Answers (a b : Text) (v : Bool) (r : Bool × Memo) : Prop := r.1 = v ∧ Sound a b r.2

theorem answers_orElse {a b : Text} {v w : Bool} {first : Bool × Memo} {second : Memo → Bool × Memo}
    (hfirst : Answers a b v first) (hsecond : ∀ memo, Sound a b memo → Answers a b w (second memo)) :
    Answers a b (v || w) (orElse first second) := by
  unfold orElse
  cases hv : first.1 with
  | true =>
      rw [if_pos rfl, ← hfirst.1, hv]
      exact ⟨hv, hfirst.2⟩
  | false =>
      rw [if_neg Bool.false_ne_true, ← hfirst.1, hv, Bool.false_or]
      exact hsecond first.2 hfirst.2

theorem drop_eq_cons {t : Text} {i : ℕ} {c : Char} (h : t[i]? = some c) : t.drop i = c :: t.drop (i + 1) := by
  obtain ⟨hi, rfl⟩ := List.getElem?_eq_some_iff.mp h
  exact List.drop_eq_getElem_cons hi

/-! ### The search without a table, at two positions -/

theorem patternsIntersect_star_left {a b : Text} {i : ℕ} (j : ℕ) (ha : a[i]? = some '*') :
    patternsIntersect (a.drop i) (b.drop j) =
      (patternsIntersect (a.drop (i + 1)) (b.drop j) ||
        (decide (j < b.length) && patternsIntersect (a.drop i) (b.drop (j + 1)))) := by
  rw [drop_eq_cons ha]
  by_cases hb : j < b.length
  · rw [List.drop_eq_getElem_cons hb, patternsIntersect, if_pos rfl, decide_eq_true hb, Bool.true_and]
  · rw [List.drop_eq_nil_of_le (by omega : b.length ≤ j), patternsIntersect, decide_eq_false hb]
    simp

theorem patternsIntersect_star_right {a b : Text} {i j : ℕ} (ha : a[i]? ≠ some '*') (hb : b[j]? = some '*') :
    patternsIntersect (a.drop i) (b.drop j) =
      (patternsIntersect (a.drop i) (b.drop (j + 1)) ||
        (decide (i < a.length) && patternsIntersect (a.drop (i + 1)) (b.drop j))) := by
  rw [drop_eq_cons hb]
  by_cases hi : i < a.length
  · have hne : a[i] ≠ '*' := fun h => ha (by rw [List.getElem?_eq_getElem hi, h])
    rw [List.drop_eq_getElem_cons hi, patternsIntersect, if_neg hne, if_pos rfl, decide_eq_true hi, Bool.true_and]
  · rw [List.drop_eq_nil_of_le (by omega : a.length ≤ i), patternsIntersect, decide_eq_false hi]
    simp

theorem patternsIntersect_letters {a b : Text} {i j : ℕ} (ha : a[i]? ≠ some '*') (hb : b[j]? ≠ some '*')
    (hend : ¬(a.length ≤ i ∧ b.length ≤ j)) :
    patternsIntersect (a.drop i) (b.drop j) =
      (decide (i < a.length ∧ j < b.length ∧ a[i]? = b[j]?) && patternsIntersect (a.drop (i + 1)) (b.drop (j + 1))) := by
  by_cases hi : i < a.length
  · have hne : a[i] ≠ '*' := fun h => ha (by rw [List.getElem?_eq_getElem hi, h])
    rw [List.drop_eq_getElem_cons hi]
    by_cases hj : j < b.length
    · have hne' : b[j] ≠ '*' := fun h => hb (by rw [List.getElem?_eq_getElem hj, h])
      rw [List.drop_eq_getElem_cons hj, patternsIntersect, if_neg hne, if_neg hne']
      simp [hi, hj]
    · rw [List.drop_eq_nil_of_le (by omega : b.length ≤ j), patternsIntersect]
      simp [hne, hj]
  · have hj : j < b.length := by omega
    have hne' : b[j] ≠ '*' := fun h => hb (by rw [List.getElem?_eq_getElem hj, h])
    rw [List.drop_eq_nil_of_le (by omega : a.length ≤ i), List.drop_eq_getElem_cons hj, patternsIntersect]
    simp [hne', hi]

theorem answers_guarded {a b : Text} {v : Bool} {p : Prop} [Decidable p] {r : p → Bool × Memo} {memo : Memo}
    (hmemo : Sound a b memo) (h : ∀ hp : p, Answers a b v (r hp)) :
    Answers a b (decide p && v) (if hp : p then r hp else (false, memo)) := by
  by_cases hp : p
  · rw [dif_pos hp, decide_eq_true hp, Bool.true_and]
    exact h hp
  · rw [dif_neg hp, decide_eq_false hp, Bool.false_and]
    exact ⟨rfl, hmemo⟩

theorem search_spec (a b : Text) (i j : ℕ) (memo : Memo) (hi : i ≤ a.length) (hj : j ≤ b.length)
    (hmemo : Sound a b memo) : Answers a b (patternsIntersect (a.drop i) (b.drop j)) (search a b i j memo) := by
  -- on how much of the two patterns is left
  generalize hn : (a.length - i) + (b.length - j) = n
  induction n using Nat.strong_induction_on generalizing i j memo with
  | _ n ih =>
      rw [search]
      split
      · next hend =>
          rw [hend.1, hend.2, List.drop_length, List.drop_length]
          exact ⟨by rw [patternsIntersect], hmemo⟩
      · next hend =>
          split
          · next cached hcached => exact ⟨hmemo i j cached hcached, hmemo⟩
          · have hentry : ∀ r : Bool × Memo, Answers a b (patternsIntersect (a.drop i) (b.drop j)) r →
                Answers a b (patternsIntersect (a.drop i) (b.drop j)) (r.1, ((i, j), r.1) :: r.2) :=
              fun r hr => ⟨hr.1, hr.2.cons hr.1⟩
            apply hentry
            split
            · next ha =>
                rw [patternsIntersect_star_left j ha.2]
                apply answers_orElse (ih _ (by omega) (i + 1) j memo (by omega) hj hmemo rfl)
                intro memo hmemo
                apply answers_guarded hmemo
                intro hb
                exact ih _ (by omega) i (j + 1) memo hi (by omega) hmemo rfl
            · next ha =>
                have ha' : a[i]? ≠ some '*' := fun h => ha ⟨(List.getElem?_eq_some_iff.mp h).1, h⟩
                split
                · next hb =>
                    rw [patternsIntersect_star_right ha' hb.2]
                    apply answers_orElse (ih _ (by omega) i (j + 1) memo hi (by omega) hmemo rfl)
                    intro memo hmemo
                    apply answers_guarded hmemo
                    intro ha
                    exact ih _ (by omega) (i + 1) j memo (by omega) hj hmemo rfl
                · next hb =>
                    have hb' : b[j]? ≠ some '*' := fun h => hb ⟨(List.getElem?_eq_some_iff.mp h).1, h⟩
                    rw [patternsIntersect_letters ha' hb' (by omega)]
                    apply answers_guarded hmemo
                    intro hab
                    exact ih _ (by omega) (i + 1) (j + 1) memo (by omega) (by omega) hmemo rfl

theorem globsIntersectMemo_eq (a b : Text) : globsIntersectMemo a b = globsIntersect a b := by
  have hsearch := (search_spec (normalizePath a) (normalizePath b) 0 0 [] (Nat.zero_le _) (Nat.zero_le _)
    (fun i j v hv => nomatch hv)).1
  unfold globsIntersectMemo globsIntersect
  simp only [hsearch, List.drop_zero]

/-! ### Words that both patterns match -/

/-- A word that two patterns match. -/
def Common (a b : Text) : Prop := ∃ s, Glob.Matches '*' a s ∧ Glob.Matches '*' b s

theorem Common.symm {a b : Text} (h : Common a b) : Common b a := by
  obtain ⟨s, ha, hb⟩ := h
  exact ⟨s, hb, ha⟩

theorem Common.skip_left {as b : Text} (h : Common as b) : Common ('*' :: as) b := by
  obtain ⟨s, ha, hb⟩ := h
  exact ⟨s, ha.skip, hb⟩

/-- A star takes one more letter of the other pattern. -/
theorem Common.absorb_left {as bs : Text} (h : Common ('*' :: as) bs) (b : Char) : Common ('*' :: as) (b :: bs) := by
  obtain ⟨s, ha, hb⟩ := h
  by_cases hstar : b = '*'
  · subst hstar
    exact ⟨s, ha, hb.skip⟩
  · exact ⟨b :: s, ha.absorb b, (Glob.matches_letter hstar).mpr ⟨s, rfl, hb⟩⟩

/-- One of the two steps of the search finds a common word, if there is one. -/
theorem common_star_left {as bs : Text} {b : Char} (h : Common ('*' :: as) (b :: bs)) :
    Common as (b :: bs) ∨ Common ('*' :: as) bs := by
  obtain ⟨s, ha, hb⟩ := h
  -- with two stars the word gets shorter and the patterns stay
  induction s with
  | nil =>
      obtain ha | ⟨c, t, hnil, -⟩ := Glob.matches_star_iff.mp ha
      · exact Or.inl ⟨[], ha, hb⟩
      · cases hnil
  | cons c s ih =>
      obtain ha' | ⟨d, t, heq, ha'⟩ := Glob.matches_star_iff.mp ha
      · exact Or.inl ⟨c :: s, ha', hb⟩
      · obtain ⟨rfl, rfl⟩ := List.cons.inj heq
        by_cases hstar : b = '*'
        · subst hstar
          obtain hb' | ⟨d, t, heq, hb'⟩ := Glob.matches_star_iff.mp hb
          · exact Or.inr ⟨c :: s, ha, hb'⟩
          · obtain ⟨rfl, rfl⟩ := List.cons.inj heq
            exact ih ha' hb'
        · obtain ⟨t, heq, hb'⟩ := (Glob.matches_letter hstar).mp hb
          obtain ⟨rfl, rfl⟩ := List.cons.inj heq
          exact Or.inr ⟨s, ha', hb'⟩

theorem common_letters {a b : Char} {as bs : Text} (ha : a ≠ '*') (hb : b ≠ '*') :
    Common (a :: as) (b :: bs) ↔ a = b ∧ Common as bs := by
  constructor
  · rintro ⟨s, hs, hs'⟩
    obtain ⟨t, rfl, ht⟩ := (Glob.matches_letter ha).mp hs
    obtain ⟨t', heq, ht'⟩ := (Glob.matches_letter hb).mp hs'
    obtain ⟨rfl, rfl⟩ := List.cons.inj heq
    exact ⟨rfl, t, ht, ht'⟩
  · rintro ⟨rfl, t, ht, ht'⟩
    exact ⟨a :: t, (Glob.matches_letter ha).mpr ⟨t, rfl, ht⟩, (Glob.matches_letter ha).mpr ⟨t, rfl, ht'⟩⟩

theorem common_nil_right {a : Char} {as : Text} : Common (a :: as) [] ↔ a = '*' ∧ Common as [] := by
  constructor
  · rintro ⟨s, hs, hnil⟩
    obtain rfl := Glob.matches_nil.mp hnil
    by_cases ha : a = '*'
    · subst ha
      obtain hs | ⟨c, t, hcons, -⟩ := Glob.matches_star_iff.mp hs
      · exact ⟨rfl, [], hs, hnil⟩
      · cases hcons
    · obtain ⟨t, hcons, -⟩ := (Glob.matches_letter ha).mp hs
      cases hcons
  · rintro ⟨rfl, h⟩
    exact h.skip_left

/-- The search finds a word that both patterns match, if there is one. -/
theorem patternsIntersect_iff (a b : Text) : patternsIntersect a b = true ↔ Common a b := by
  fun_induction patternsIntersect a b with
  | case1 => exact iff_of_true rfl ⟨[], rfl, rfl⟩
  | case2 a as ih =>
      rw [Bool.and_eq_true, decide_eq_true_eq, ih]
      exact common_nil_right.symm
  | case3 b bs ih =>
      rw [Bool.and_eq_true, decide_eq_true_eq, ih]
      constructor
      · rintro ⟨hb, h⟩
        exact (common_nil_right.mpr ⟨hb, h.symm⟩).symm
      · intro h
        obtain ⟨hb, h⟩ := common_nil_right.mp h.symm
        exact ⟨hb, h.symm⟩
  | case4 as b bs ih1 ih2 =>
      rw [Bool.or_eq_true, ih1, ih2]
      exact ⟨fun h => h.elim Common.skip_left fun h => h.absorb_left b, common_star_left⟩
  | case5 a as ha bs ih1 ih2 =>
      rw [Bool.or_eq_true, ih1, ih2]
      constructor
      · rintro (h | h)
        · exact h.symm.skip_left.symm
        · exact (h.symm.absorb_left a).symm
      · intro h
        exact (common_star_left h.symm).imp Common.symm Common.symm
  | case6 a as b bs ha hb ih =>
      rw [Bool.and_eq_true, decide_eq_true_eq, ih]
      exact (common_letters ha hb).symm

theorem globsIntersect_iff (a b : Text) : globsIntersect a b = true ↔ Common (normalizePath a) (normalizePath b) := by
  unfold globsIntersect
  dsimp only
  split
  · next hplain =>
      rw [Bool.and_eq_true, List.all_eq_true, List.all_eq_true] at hplain
      have hnot : ∀ t : Text, (∀ c ∈ t, decide (c ≠ '*') = true) → '*' ∉ t :=
        fun t ht hmem => of_decide_eq_true (ht _ hmem) rfl
      rw [decide_eq_true_eq]
      constructor
      · intro heq
        refine ⟨normalizePath a, (Glob.matches_of_not_mem (hnot _ hplain.1)).mpr rfl, ?_⟩
        exact (Glob.matches_of_not_mem (hnot _ hplain.2)).mpr heq
      · rintro ⟨s, ha, hb⟩
        rw [← (Glob.matches_of_not_mem (hnot _ hplain.1)).mp ha, ← (Glob.matches_of_not_mem (hnot _ hplain.2)).mp hb]
  · exact patternsIntersect_iff _ _

/-! ### Stars and normalization -/

theorem dropWhile_append_star {p : Char → Bool} (hp : p '*' = false) (x y : Text) :
    (x ++ '*' :: y).dropWhile p = x.dropWhile p ++ '*' :: y := by
  induction x with
  | nil => rw [List.nil_append, List.dropWhile_cons_of_neg (by simp [hp])]; rfl
  | cons c x ih =>
      cases hc : p c with
      | true => rw [List.cons_append, List.dropWhile_cons_of_pos hc, List.dropWhile_cons_of_pos hc, ih]
      | false =>
          rw [List.cons_append, List.dropWhile_cons_of_neg (by simp [hc]), List.dropWhile_cons_of_neg (by simp [hc])]
          rfl

/-- Without a leading `./`. -/
def withoutDot : Text → Text
  | '.' :: '/' :: t => t
  | t => t

theorem normalizePath_eq (p : Text) :
    normalizePath p = withoutDot (p.trim.map fun c => if c = '\\' then '/' else c) := rfl

theorem withoutDot_star (x : Text) : ∃ nx, ∀ y, withoutDot (x ++ '*' :: y) = nx ++ '*' :: y := by
  match x with
  | [] => exact ⟨[], fun y => rfl⟩
  | ['.'] => exact ⟨['.'], fun y => rfl⟩
  | '.' :: '/' :: x => exact ⟨x, fun y => rfl⟩
  | c :: x =>
      by_cases hdot : ∃ x', c :: x = '.' :: '/' :: x'
      · obtain ⟨x', hx'⟩ := hdot
        exact ⟨x', fun y => by rw [hx']; rfl⟩
      · refine ⟨c :: x, fun y => ?_⟩
        unfold withoutDot
        split
        · next t ht =>
            -- the slash would have to be the star
            obtain ⟨rfl, hrest⟩ := List.cons.inj ht
            cases x with
            | nil =>
                obtain ⟨hslash, -⟩ := List.cons.inj hrest
                exact absurd hslash (by decide)
            | cons d x =>
                obtain ⟨rfl, -⟩ := List.cons.inj hrest
                exact absurd ⟨x, rfl⟩ hdot
        · rfl

theorem trim_star (x y : Text) :
    Text.trim (x ++ '*' :: y) = x.dropWhile Text.jsSpace ++ '*' :: (y.reverse.dropWhile Text.jsSpace).reverse := by
  have hspace : Text.jsSpace '*' = false := by decide
  have hrev : (x.dropWhile Text.jsSpace ++ '*' :: y).reverse = y.reverse ++ '*' :: (x.dropWhile Text.jsSpace).reverse := by
    simp
  unfold Text.trim
  rw [dropWhile_append_star hspace, hrev, dropWhile_append_star hspace]
  simp

/-- Normalization does not touch the stars, nor what it makes of the text on their two sides. -/
theorem normalizePath_star (x y : Text) :
    ∃ nx ny, normalizePath (x ++ '*' :: y) = nx ++ '*' :: ny ∧
      normalizePath (x ++ '*' :: '*' :: y) = nx ++ '*' :: '*' :: ny := by
  let slash : Char → Char := fun c => if c = '\\' then '/' else c
  let x' := x.dropWhile Text.jsSpace
  let y' := (y.reverse.dropWhile Text.jsSpace).reverse
  have hdouble : (('*' :: y).reverse.dropWhile Text.jsSpace).reverse = '*' :: y' := by
    rw [List.reverse_cons, dropWhile_append_star (by decide)]
    simp [y']
  obtain ⟨nx, hnx⟩ := withoutDot_star (x'.map slash)
  refine ⟨nx, y'.map slash, ?_, ?_⟩
  · rw [normalizePath_eq, trim_star, List.map_append, ← hnx]
    rfl
  · rw [normalizePath_eq, trim_star, hdouble, List.map_append, ← hnx]
    rfl

/-- `globsIntersect` answers yes exactly if some word matches both normalized patterns; it is symmetric, and
two stars in a row are as good as one. -/
theorem globsIntersect_exact (a b : Text) :
    (globsIntersectMemo a b = true ↔
      ∃ s, Glob.Matches '*' (normalizePath a) s ∧ Glob.Matches '*' (normalizePath b) s) ∧
    globsIntersectMemo a b = globsIntersectMemo b a ∧
    ∀ x y, globsIntersectMemo (x ++ '*' :: '*' :: y) b = globsIntersectMemo (x ++ '*' :: y) b := by
  simp only [globsIntersectMemo_eq]
  refine ⟨globsIntersect_iff a b, ?_, ?_⟩
  · rw [Bool.eq_iff_iff, globsIntersect_iff, globsIntersect_iff]
    exact ⟨Common.symm, Common.symm⟩
  · intro x y
    obtain ⟨nx, ny, hone, htwo⟩ := normalizePath_star x y
    rw [Bool.eq_iff_iff, globsIntersect_iff, globsIntersect_iff, hone, htwo]
    apply exists_congr
    intro s
    have hstars : ∀ s, Glob.Matches '*' ('*' :: '*' :: ny) s ↔ Glob.Matches '*' ('*' :: ny) s :=
      fun s => Glob.matches_star_star
    rw [Glob.matches_append_congr hstars nx]

example : globsIntersectMemo "src/*/a.ts".toList "./src/**".toList = true := by
  rw [globsIntersectMemo_eq]
  simp [globsIntersect, normalizePath_eq, withoutDot, Text.trim, Text.jsSpace, patternsIntersect]

end Remudero.Overlap
